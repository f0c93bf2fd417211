import Mathlib.Data.List.Perm.Basic
import Mathlib.Data.List.Pairwise
import Mathlib.Order.Interval.Finset.Nat
import Mathlib.Algebra.BigOperators.Group.List.Basic
import Mathlib.Tactic.Ring

/-!
Blocks of consecutive numbers. A list of blocks tiles a set when every number of
the set lies in exactly one of them. Splitting a block, joining two neighbours and
reordering the list keep a tiling, and this is all an allocator does.
-/
namespace Ucore.Library

/-- The numbers from `base` to `base + size`. -/
structure Block where
  base : ℕ
  size : ℕ
  deriving DecidableEq

namespace Block

instance : Membership ℕ Block := ⟨fun b p => b.base ≤ p ∧ p < b.base + b.size⟩

theorem mem_def {p : ℕ} {b : Block} : p ∈ b ↔ b.base ≤ p ∧ p < b.base + b.size := Iff.rfl

instance (p : ℕ) (b : Block) : Decidable (p ∈ b) :=
  inferInstanceAs (Decidable (b.base ≤ p ∧ p < b.base + b.size))

/-- No number lies in both blocks. -/
def Apart (a b : Block) : Prop := ∀ p, p ∈ a → p ∉ b

theorem Apart.symm {a b : Block} (h : Apart a b) : Apart b a := fun p hb ha => h p ha hb

theorem apart_iff {a b : Block} (ha : 0 < a.size) (hb : 0 < b.size) :
    Apart a b ↔ a.base + a.size ≤ b.base ∨ b.base + b.size ≤ a.base := by
  constructor
  · intro h
    by_contra hno
    have hmax := h (max a.base b.base)
    simp only [mem_def] at hmax
    omega
  · intro h p hpa hpb
    simp only [mem_def] at hpa hpb
    omega

theorem base_mem {b : Block} (hb : 0 < b.size) : b.base ∈ b := by
  simp only [mem_def]
  omega

end Block

/-- Every number of `P` lies in exactly one block of the list, and no other number in any. -/
structure Tiling (P : ℕ → Prop) (bs : List Block) : Prop where
  pos : ∀ b ∈ bs, 0 < b.size
  apart : bs.Pairwise Block.Apart
  cover : ∀ p, P p ↔ ∃ b ∈ bs, p ∈ b

namespace Tiling

variable {P Q : ℕ → Prop} {bs cs : List Block}

theorem nil (h : ∀ p, ¬ P p) : Tiling P [] where
  pos := by simp
  apart := List.Pairwise.nil
  cover p := by simp [h p]

theorem perm (h : Tiling P bs) (hp : bs.Perm cs) : Tiling P cs where
  pos b hb := h.pos b (hp.mem_iff.mpr hb)
  apart := (hp.pairwise_iff (fun hab => hab.symm)).mp h.apart
  cover p := by
    rw [h.cover]
    simp only [hp.mem_iff]

/-- Only one block contains a number. -/
theorem unique (h : Tiling P bs) {a b : Block} (ha : a ∈ bs) (hb : b ∈ bs) {p : ℕ}
    (hpa : p ∈ a) (hpb : p ∈ b) : a = b := by
  by_contra hne
  have : Std.Symm Block.Apart := ⟨fun _ _ hab => hab.symm⟩
  exact h.apart.forall ha hb hne p hpa hpb

theorem apart_head {b : Block} (h : Tiling P (b :: bs)) : ∀ c ∈ bs, Block.Apart b c :=
  (List.pairwise_cons.mp h.apart).1

/-- No other block begins inside the first one. -/
theorem base_notMem_head {b : Block} (h : Tiling P (b :: bs)) : ∀ c ∈ bs, c.base ∉ b :=
  fun c hc hbad => h.apart_head c hc c.base hbad
    (Block.base_mem (h.pos c (List.mem_cons_of_mem b hc)))

theorem base_ne_head {b : Block} (h : Tiling P (b :: bs)) : ∀ c ∈ bs, c.base ≠ b.base :=
  fun c hc heq => h.base_notMem_head c hc (heq ▸ Block.base_mem (h.pos b List.mem_cons_self))

theorem tail {b : Block} (h : Tiling P (b :: bs)) : Tiling (fun p => P p ∧ p ∉ b) bs where
  pos c hc := h.pos c (List.mem_cons_of_mem b hc)
  apart := (List.pairwise_cons.mp h.apart).2
  cover p := by
    constructor
    · intro hp
      obtain ⟨c, hc, hpc⟩ := (h.cover p).mp hp.1
      rcases List.mem_cons.mp hc with rfl | hc
      · exact absurd hpc hp.2
      · exact ⟨c, hc, hpc⟩
    · intro hp
      obtain ⟨c, hc, hpc⟩ := hp
      refine ⟨(h.cover p).mpr ⟨c, List.mem_cons_of_mem b hc, hpc⟩, ?_⟩
      exact fun hpb => h.apart_head c hc p hpb hpc

/-- The numbers in the last blocks are the ones that are not in the first blocks. -/
theorem mem_last (h : Tiling P (cs ++ bs)) (p : ℕ) :
    (∃ b ∈ bs, p ∈ b) ↔ P p ∧ ¬ ∃ c ∈ cs, p ∈ c := by
  constructor
  · intro hex
    obtain ⟨b, hb, hpb⟩ := hex
    refine ⟨(h.cover p).mpr ⟨b, List.mem_append_right cs hb, hpb⟩, ?_⟩
    intro hbad
    obtain ⟨c, hc, hpc⟩ := hbad
    exact (List.pairwise_append.mp h.apart).2.2 c hc b hb p hpc hpb
  · intro hp
    obtain ⟨b, hb, hpb⟩ := (h.cover p).mp hp.1
    rcases List.mem_append.mp hb with hb | hb
    · exact absurd ⟨b, hb, hpb⟩ hp.2
    · exact ⟨b, hb, hpb⟩

/-- A block outside the set is added. -/
theorem cons (h : Tiling P bs) {b : Block} (hpos : 0 < b.size) (hout : ∀ p ∈ b, ¬ P p)
    (hQ : ∀ p, Q p ↔ P p ∨ p ∈ b) : Tiling Q (b :: bs) where
  pos c hc := by
    rcases List.mem_cons.mp hc with rfl | hc
    · exact hpos
    · exact h.pos c hc
  apart := by
    refine List.pairwise_cons.mpr ⟨?_, h.apart⟩
    intro c hc p hpb hpc
    exact hout p hpb ((h.cover p).mpr ⟨c, hc, hpc⟩)
  cover p := by
    simp only [hQ, h.cover, List.mem_cons, exists_eq_or_imp]
    exact or_comm

/-- A block is cut in two. -/
theorem split {base m n : ℕ} (h : Tiling P (⟨base, m + n⟩ :: bs)) (hm : 0 < m) (hn : 0 < n) :
    Tiling P (⟨base, m⟩ :: ⟨base + m, n⟩ :: bs) := by
  have hsecond : Tiling (fun p => (P p ∧ p ∉ (⟨base, m + n⟩ : Block)) ∨
      p ∈ (⟨base + m, n⟩ : Block)) (⟨base + m, n⟩ :: bs) := by
    refine h.tail.cons hn ?_ (fun p => Iff.rfl)
    intro p hp hbad
    apply hbad.2
    simp only [Block.mem_def] at hp ⊢
    omega
  refine hsecond.cons hm ?_ ?_
  · intro p hp hbad
    simp only [Block.mem_def] at hp hbad
    omega
  · intro p
    have hin : p ∈ (⟨base, m + n⟩ : Block) → P p :=
      fun hp => (h.cover p).mpr ⟨_, List.mem_cons_self, hp⟩
    simp only [Block.mem_def] at hin ⊢
    constructor
    · intro hp
      by_cases h1 : base ≤ p ∧ p < base + m
      · exact Or.inr h1
      · by_cases h2 : base + m ≤ p ∧ p < base + m + n
        · exact Or.inl (Or.inr h2)
        · exact Or.inl (Or.inl ⟨hp, by omega⟩)
    · intro hp
      rcases hp with (hp | hp) | hp
      · exact hp.1
      · exact hin (by omega)
      · exact hin (by omega)

/-- Two neighbours are joined. -/
theorem join {base m n : ℕ} (h : Tiling P (⟨base, m⟩ :: ⟨base + m, n⟩ :: bs)) :
    Tiling P (⟨base, m + n⟩ :: bs) := by
  have hm : 0 < m := h.pos ⟨base, m⟩ List.mem_cons_self
  have hrest := h.tail.tail
  refine hrest.cons (Nat.add_pos_left hm n) ?_ ?_
  · intro p hp hbad
    obtain ⟨⟨-, h1⟩, h2⟩ := hbad
    simp only [Block.mem_def] at hp h1 h2
    omega
  · intro p
    have h1 : p ∈ (⟨base, m⟩ : Block) → P p :=
      fun hp => (h.cover p).mpr ⟨_, List.mem_cons_self, hp⟩
    have h2 : p ∈ (⟨base + m, n⟩ : Block) → P p :=
      fun hp => (h.cover p).mpr ⟨_, List.mem_cons_of_mem _ List.mem_cons_self, hp⟩
    simp only [Block.mem_def] at h1 h2 ⊢
    constructor
    · intro hp
      by_cases hb : base ≤ p ∧ p < base + (m + n)
      · exact Or.inr hb
      · exact Or.inl ⟨⟨hp, by omega⟩, by omega⟩
    · intro hp
      rcases hp with hp | hp
      · exact hp.1.1
      · by_cases hb : p < base + m
        · exact h1 (by omega)
        · exact h2 (by omega)

/-- The numbers below `N` that lie in a block. -/
def covered (bs : List Block) (N : ℕ) : Finset ℕ :=
  (Finset.range N).filter (fun p => ∃ b ∈ bs, p ∈ b)

/-- Disjoint blocks below `N` have together as many numbers as they cover. -/
theorem card_covered {N : ℕ} (hapart : bs.Pairwise Block.Apart)
    (hN : ∀ b ∈ bs, b.base + b.size ≤ N) : (covered bs N).card = (bs.map Block.size).sum := by
  induction bs with
  | nil => simp [covered]
  | cons b bs ih =>
    obtain ⟨hb, hrest⟩ := List.pairwise_cons.mp hapart
    have hbN := hN b List.mem_cons_self
    have hsplit : covered (b :: bs) N = Finset.Ico b.base (b.base + b.size) ∪ covered bs N := by
      apply Finset.ext
      intro p
      simp only [covered, Finset.mem_filter, Finset.mem_range, Finset.mem_union, Finset.mem_Ico,
        List.mem_cons, exists_eq_or_imp, Block.mem_def]
      constructor
      · intro hp
        rcases hp with ⟨hpN, hp | hp⟩
        · exact Or.inl hp
        · exact Or.inr ⟨hpN, hp⟩
      · intro hp
        rcases hp with hp | hp
        · exact ⟨by omega, Or.inl hp⟩
        · exact ⟨hp.1, Or.inr hp.2⟩
    have hdisj : Disjoint (Finset.Ico b.base (b.base + b.size)) (covered bs N) := by
      rw [Finset.disjoint_left]
      intro p hp hbad
      simp only [covered, Finset.mem_filter] at hbad
      obtain ⟨-, c, hc, hpc⟩ := hbad
      exact hb c hc p (Finset.mem_Ico.mp hp) hpc
    rw [hsplit, Finset.card_union_of_disjoint hdisj,
      ih hrest (fun c hc => hN c (List.mem_cons_of_mem b hc)), Nat.card_Ico, List.map_cons,
      List.sum_cons]
    omega

theorem le_of_bound {N : ℕ} (h : Tiling P bs) (hN : ∀ p, P p → p < N) {b : Block}
    (hb : b ∈ bs) : b.base + b.size ≤ N := by
  have hpos := h.pos b hb
  have hlast : b.base + b.size - 1 ∈ b := by
    simp only [Block.mem_def]
    omega
  have hlt := hN _ ((h.cover _).mpr ⟨b, hb, hlast⟩)
  omega

/-- Blocks below a bound have together at most as many numbers. -/
theorem sum_le {N : ℕ} (h : Tiling P bs) (hN : ∀ p, P p → p < N) :
    (bs.map Block.size).sum ≤ N := by
  have hcard := card_covered h.apart (fun b hb => h.le_of_bound hN hb)
  have hle : (covered bs N).card ≤ (Finset.range N).card := Finset.card_filter_le _ _
  rw [Finset.card_range] at hle
  omega

theorem length_le_sum (h : ∀ b ∈ bs, 0 < b.size) : bs.length ≤ (bs.map Block.size).sum := by
  induction bs with
  | nil => simp
  | cons b bs ih =>
    have hb := h b List.mem_cons_self
    have hrest := ih (fun c hc => h c (List.mem_cons_of_mem b hc))
    simp only [List.length_cons, List.map_cons, List.sum_cons]
    omega

/-- Below a bound there is room for at most as many blocks. -/
theorem length_le {N : ℕ} (h : Tiling P bs) (hN : ∀ p, P p → p < N) : bs.length ≤ N :=
  Nat.le_trans (length_le_sum h.pos) (h.sum_le hN)

/-- Two tilings of one bounded set have the same size. -/
theorem sum_eq {N : ℕ} (h : Tiling P bs) (h' : Tiling P cs) (hN : ∀ p, P p → p < N) :
    (bs.map Block.size).sum = (cs.map Block.size).sum := by
  rw [← card_covered h.apart (fun b hb => h.le_of_bound hN hb),
    ← card_covered h'.apart (fun b hb => h'.le_of_bound hN hb)]
  apply congrArg Finset.card
  exact Finset.filter_congr (fun p _ => (h.cover p).symm.trans (h'.cover p))

end Tiling

/-- The blocks follow one another from `base` to `last`. -/
def Consecutive : ℕ → ℕ → List Block → Prop
  | base, last, [] => base = last
  | base, last, b :: bs => b.base = base ∧ Consecutive (base + b.size) last bs

theorem Consecutive.le {base last : ℕ} {bs : List Block} (h : Consecutive base last bs) :
    base ≤ last := by
  induction bs generalizing base with
  | nil =>
    simp only [Consecutive] at h
    omega
  | cons b bs ih =>
    have hrest := ih h.2
    omega

theorem Consecutive.tiling {base last : ℕ} {bs : List Block} (h : Consecutive base last bs)
    (hpos : ∀ b ∈ bs, 0 < b.size) : Tiling (fun p => base ≤ p ∧ p < last) bs := by
  induction bs generalizing base with
  | nil =>
    simp only [Consecutive] at h
    apply Tiling.nil
    omega
  | cons b bs ih =>
    obtain ⟨hbase, hnext⟩ := h
    have hrest := ih hnext (fun c hc => hpos c (List.mem_cons_of_mem b hc))
    have hle := hnext.le
    refine hrest.cons (hpos b List.mem_cons_self) ?_ ?_
    · intro p hp hbad
      simp only [Block.mem_def] at hp
      omega
    · intro p
      simp only [Block.mem_def]
      omega

end Ucore.Library
