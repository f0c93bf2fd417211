import Ucore.Library.Ring
import Mathlib.Data.List.Perm.Basic

/-!
Several circular lists over one heap of links. Each list has a head of its own, and an
item is on at most one of them at a time, through the one link field that it has.
-/
namespace Ucore.Library

variable {α β : Type*}

/-- The heads of the lists and the link fields of the items are different nodes. -/
structure DistinctNodes (head : ℕ → α) (entry : β → α) : Prop where
  head_inj : ∀ {k k'}, head k = head k' → k = k'
  entry_inj : ∀ {x y}, entry x = entry y → x = y
  head_ne : ∀ k x, head k ≠ entry x

/-- The lists `k < N` are rings with the items `items k`, and no item is on two of them. -/
structure RingFamily (l : Links α) (head : ℕ → α) (entry : β → α) (N : ℕ) (items : ℕ → List β) :
    Prop where
  ring : ∀ k < N, l.Ring (head k) ((items k).map entry)
  disjoint : ∀ k < N, ∀ k' < N, k ≠ k' → ∀ x ∈ items k, x ∉ items k'

/-- All items, list after list. -/
def pooled (N : ℕ) (items : ℕ → List β) : List β := (List.range N).flatMap items

theorem mem_pooled {N : ℕ} {items : ℕ → List β} {x : β} :
    x ∈ pooled N items ↔ ∃ k < N, x ∈ items k := by
  simp only [pooled, List.mem_flatMap, List.mem_range]

/-- Taking an item off its list takes it out of the pool. -/
theorem pooled_remove {N k : ℕ} {items : ℕ → List β} {xs ys : List β} {x : β} (hk : k < N)
    (h : items k = xs ++ x :: ys) :
    (pooled N items).Perm (x :: pooled N (Function.update items k (xs ++ ys))) := by
  obtain ⟨ks, ks', hks⟩ := List.append_of_mem (List.mem_range.mpr hk)
  have hnodup : (ks ++ k :: ks').Nodup := hks ▸ List.nodup_range
  rw [List.nodup_append] at hnodup
  obtain ⟨-, h2, h3⟩ := hnodup
  have hbefore : ks.flatMap (Function.update items k (xs ++ ys)) = ks.flatMap items := by
    apply List.flatMap_congr
    intro k' hk'
    rw [Function.update_of_ne (h3 k' hk' k List.mem_cons_self)]
  have hbehind : ks'.flatMap (Function.update items k (xs ++ ys)) = ks'.flatMap items := by
    apply List.flatMap_congr
    intro k' hk'
    rw [Function.update_of_ne]
    intro heq
    exact (List.nodup_cons.mp h2).1 (heq ▸ hk')
  simp only [pooled, hks, List.flatMap_append, List.flatMap_cons, h, Function.update_self]
  rw [hbefore, hbehind]
  simp only [List.append_assoc, List.cons_append]
  rw [← List.append_assoc, ← List.append_assoc]
  exact List.perm_middle

/-- Putting an item in front of its list puts it into the pool. -/
theorem pooled_push {N k : ℕ} {items : ℕ → List β} {x : β} (hk : k < N) :
    (pooled N (Function.update items k (x :: items k))).Perm (x :: pooled N items) := by
  have hfront : Function.update items k (x :: items k) k = [] ++ x :: items k := by
    rw [Function.update_self]
    rfl
  have hperm := pooled_remove hk hfront
  rwa [List.nil_append, Function.update_idem, Function.update_eq_self] at hperm

namespace RingFamily

variable {l : Links α} {head : ℕ → α} {entry : β → α} {N k : ℕ} {items : ℕ → List β}

theorem mem_map_entry (hn : DistinctNodes head entry) {x : β} {xs : List β} :
    entry x ∈ xs.map entry ↔ x ∈ xs := by
  constructor
  · intro h
    obtain ⟨y, hy, heq⟩ := List.mem_map.mp h
    exact hn.entry_inj heq ▸ hy
  · exact List.mem_map_of_mem

/-- The link field of an item is in a ring only if the item is on the list. -/
theorem entry_mem (hn : DistinctNodes head entry) {x : β} {xs : List β} :
    entry x ∈ head k :: xs.map entry ↔ x ∈ xs := by
  rw [List.mem_cons, mem_map_entry hn]
  exact or_iff_right (fun heq => hn.head_ne k x heq.symm)

/-- The nodes of one ring are not in another. -/
theorem apart (h : RingFamily l head entry N items) (hn : DistinctNodes head entry) {k' : ℕ}
    (hk : k < N) (hk' : k' < N) (hne : k ≠ k') {n : α}
    (hmem : n ∈ head k :: (items k).map entry) : n ∉ head k' :: (items k').map entry := by
  rcases List.mem_cons.mp hmem with heq | hmem
  · rw [heq, List.mem_cons, not_or]
    refine ⟨fun hbad => hne (hn.head_inj hbad), ?_⟩
    intro hbad
    obtain ⟨y, -, hy⟩ := List.mem_map.mp hbad
    exact hn.head_ne k y hy.symm
  · obtain ⟨x, hx, rfl⟩ := List.mem_map.mp hmem
    rw [entry_mem hn]
    exact h.disjoint k hk k' hk' hne x hx

variable [DecidableEq α]

/-- An item that is on no list comes to the front of one. -/
theorem push (h : RingFamily l head entry N items) (hn : DistinctNodes head entry) (hk : k < N)
    {x : β} (hx : ∀ k' < N, x ∉ items k') :
    RingFamily (l.insertBetween (entry x) (head k) (l.next (head k))) head entry N
      (Function.update items k (x :: items k)) := by
  have hout : ∀ k' < N, entry x ∉ head k' :: (items k').map entry := by
    intro k' hk'
    rw [entry_mem hn]
    exact hx k' hk'
  refine ⟨?_, ?_⟩
  · intro k' hk'
    by_cases heq : k' = k
    · subst heq
      have hring : l.Ring (head k') ([] ++ (items k').map entry) := h.ring k' hk'
      rw [Function.update_self]
      exact hring.insert (hout k' hk') rfl hring.next_last
    · rw [Function.update_of_ne heq]
      exact (h.ring k' hk').insert_frame (hout k' hk')
        (h.apart hn hk hk' (Ne.symm heq) List.mem_cons_self)
        (h.apart hn hk hk' (Ne.symm heq) ((h.ring k hk).next_mem_ring List.mem_cons_self))
  · intro k₁ hk₁ k₂ hk₂ hne y hy
    by_cases h₁ : k₁ = k
    · subst h₁
      rw [Function.update_of_ne (Ne.symm hne)]
      rw [Function.update_self] at hy
      rcases List.mem_cons.mp hy with rfl | hy
      · exact hx k₂ hk₂
      · exact h.disjoint k₁ hk₁ k₂ hk₂ hne y hy
    · rw [Function.update_of_ne h₁] at hy
      by_cases h₂ : k₂ = k
      · subst h₂
        rw [Function.update_self, List.mem_cons, not_or]
        refine ⟨?_, h.disjoint k₁ hk₁ k₂ hk₂ hne y hy⟩
        intro heq
        subst heq
        exact hx k₁ hk₁ hy
      · rw [Function.update_of_ne h₂]
        exact h.disjoint k₁ hk₁ k₂ hk₂ hne y hy

/-- An item leaves its list. -/
theorem remove (h : RingFamily l head entry N items) (hn : DistinctNodes head entry) (hk : k < N)
    {x : β} {xs ys : List β} (hitems : items k = xs ++ x :: ys) :
    RingFamily (l.join (l.prev (entry x)) (l.next (entry x))) head entry N
      (Function.update items k (xs ++ ys)) := by
  have hin : entry x ∈ head k :: (items k).map entry := by
    simp [hitems]
  have hsub : ∀ k' y, y ∈ Function.update items k (xs ++ ys) k' → y ∈ items k' := by
    intro k' y hy
    by_cases heq : k' = k
    · subst heq
      rw [Function.update_self] at hy
      rw [hitems]
      simp only [List.mem_append, List.mem_cons] at hy ⊢
      tauto
    · rwa [Function.update_of_ne heq] at hy
  refine ⟨?_, ?_⟩
  · intro k' hk'
    by_cases heq : k' = k
    · subst heq
      have hring := h.ring k' hk'
      rw [hitems, List.map_append, List.map_cons] at hring
      rw [Function.update_self, List.map_append]
      exact hring.remove
    · rw [Function.update_of_ne heq]
      exact (h.ring k' hk').join_frame
        (h.apart hn hk hk' (Ne.symm heq) ((h.ring k hk).prev_mem_ring hin))
        (h.apart hn hk hk' (Ne.symm heq) ((h.ring k hk).next_mem_ring hin))
  · intro k₁ hk₁ k₂ hk₂ hne y hy hbad
    exact h.disjoint k₁ hk₁ k₂ hk₂ hne y (hsub k₁ y hy) (hsub k₂ y hbad)

/-- An item that is on no list gets links of its own. -/
theorem isolate (h : RingFamily l head entry N items) (hn : DistinctNodes head entry) {x : β}
    (hx : ∀ k < N, x ∉ items k) : RingFamily (l.isolate (entry x)) head entry N items := by
  refine ⟨?_, h.disjoint⟩
  intro k hk
  refine (h.ring k hk).isolate_frame ?_
  rw [entry_mem hn]
  exact hx k hk

/-- The lists are initialised one after the other. -/
theorem init_step (h : RingFamily l head entry N items) (hn : DistinctNodes head entry)
    (hempty : ∀ k < N, items k = []) (hN : items N = []) :
    RingFamily (l.isolate (head N)) head entry (N + 1) items := by
  refine ⟨?_, ?_⟩
  · intro k hk
    rcases Nat.lt_succ_iff_lt_or_eq.mp hk with hlt | rfl
    · have hne : head k ≠ head N := fun heq => absurd (hn.head_inj heq) (Nat.ne_of_lt hlt)
      have hring := h.ring k hlt
      rw [hempty k hlt, List.map_nil] at hring ⊢
      refine hring.congr ?_ ?_
      · intro n hmem
        rw [List.mem_singleton.mp hmem]
        exact Function.update_of_ne hne _ _
      · intro n hmem
        rw [List.mem_singleton.mp hmem]
        exact Function.update_of_ne hne _ _
    · rw [hN, List.map_nil]
      exact Links.ring_isolate l (head k)
  · intro k hk k' hk' hne x hx
    have hnil : items k = [] := by
      rcases Nat.lt_succ_iff_lt_or_eq.mp hk with hlt | rfl
      · exact hempty k hlt
      · exact hN
    rw [hnil] at hx
    exact absurd hx List.not_mem_nil

end RingFamily
end Ucore.Library
