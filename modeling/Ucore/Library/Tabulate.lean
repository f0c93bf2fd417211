import Mathlib.Data.List.Nodup
import Mathlib.Logic.Function.Basic

/-!
Lists of entries with keys as finite maps. A list tabulates a map when no key is there twice and a
search by key finds the entry of the map.
-/
namespace Ucore.Library

variable {α κ : Type*} [DecidableEq κ] {key : α → κ} {l : List α} {d : κ → Option α} {a : α} {k : κ}
  {p : α → Bool} {f : α → α}

/-- The first entry that passes the test is changed. -/
def updateFirst (p : α → Bool) (f : α → α) : List α → List α
  | [] => []
  | a :: l => if p a then f a :: l else a :: updateFirst p f l

structure Tabulates (key : α → κ) (l : List α) (d : κ → Option α) : Prop where
  nodup : (l.map key).Nodup
  find : ∀ k, l.find? (fun a => decide (key a = k)) = d k

namespace Tabulates

theorem nil : Tabulates key [] (fun _ => none) := ⟨List.nodup_nil, fun _ => rfl⟩

theorem key_eq (h : Tabulates key l d) (ha : d k = some a) : key a = k := by
  rw [← h.find] at ha
  have hkey := List.find?_some ha
  exact of_decide_eq_true hkey

theorem mem_iff (h : Tabulates key l d) : a ∈ l ↔ d (key a) = some a := by
  constructor
  · intro ha
    rw [← h.find]
    cases hfind : l.find? (fun b => decide (key b = key a)) with
    | none => exact absurd (decide_eq_true rfl) (List.find?_eq_none.mp hfind a ha)
    | some b =>
      have hkey := List.find?_some hfind
      rw [List.inj_on_of_nodup_map h.nodup (List.mem_of_find?_eq_some hfind) ha
        (of_decide_eq_true hkey)]
  · intro ha
    rw [← h.find] at ha
    exact List.mem_of_find?_eq_some ha

theorem eq_none_iff (h : Tabulates key l d) : d k = none ↔ ∀ a ∈ l, key a ≠ k := by
  rw [← h.find, List.find?_eq_none]
  simp only [decide_eq_true_eq, ne_eq]

/-- A new key in front. -/
theorem cons (h : Tabulates key l d) (hnew : d (key a) = none) :
    Tabulates key (a :: l) (Function.update d (key a) (some a)) := by
  refine ⟨?_, ?_⟩
  · rw [List.map_cons, List.nodup_cons]
    refine ⟨?_, h.nodup⟩
    intro hmem
    obtain ⟨b, hb, hkey⟩ := List.mem_map.mp hmem
    exact h.eq_none_iff.mp hnew b hb hkey
  · intro k
    by_cases hk : key a = k
    · subst hk
      rw [List.find?_cons_of_pos (by simp), Function.update_self]
    · rw [List.find?_cons_of_neg (by simpa using hk), Function.update_of_ne (Ne.symm hk), h.find]

/-- Every entry is changed, and keeps its key. -/
theorem map (h : Tabulates key l d) (hkey : ∀ a, key (f a) = key a) :
    Tabulates key (l.map f) (fun k => (d k).map f) := by
  have hcomp : key ∘ f = key := funext hkey
  refine ⟨?_, ?_⟩
  · rw [List.map_map, hcomp]
    exact h.nodup
  · intro k
    rw [List.find?_map, ← h.find]
    refine congrArg (Option.map f) (congrArg (fun q => List.find? q l) (funext fun b => ?_))
    rw [Function.comp_apply, hkey]

/-- With a key of which there is only one entry, the first one is the one. -/
theorem updateFirst_eq_map (hnodup : (l.map key).Nodup) (ha : a ∈ l)
    (hp : ∀ b, p b = true → key b = key a) (hpa : p a = true) :
    updateFirst p f l = l.map (fun b => if key b = key a then f b else b) := by
  induction l with
  | nil => rfl
  | cons b l ih =>
    rw [List.map_cons, List.nodup_cons] at hnodup
    rw [updateFirst, List.map_cons]
    by_cases hb : p b = true
    · have hrest : ∀ c ∈ l, ¬ key c = key a := by
        intro c hc heq
        refine hnodup.1 (List.mem_map.mpr ⟨c, hc, ?_⟩)
        rw [heq, hp b hb]
      rw [if_pos hb, if_pos (hp b hb)]
      refine congrArg (f b :: ·) ?_
      calc l = l.map id := (List.map_id l).symm
        _ = _ := List.map_congr_left fun c hc => (if_neg (hrest c hc)).symm
    · have hne : a ≠ b := fun h => hb (h ▸ hpa)
      have hal : a ∈ l := (List.mem_cons.mp ha).resolve_left hne
      have hkey : ¬ key b = key a := by
        intro heq
        exact hnodup.1 (heq ▸ List.mem_map_of_mem hal)
      rw [if_neg hb, if_neg hkey, ih hnodup.2 hal]

/-- The entry that is found is changed. -/
theorem updateFirst (h : Tabulates key l d) (ha : d k = some a) (hkey : ∀ a, key (f a) = key a)
    (hp : ∀ b, p b = true → key b = k) (hpa : p a = true) :
    Tabulates key (Library.updateFirst p f l) (Function.update d k (some (f a))) := by
  obtain rfl := h.key_eq ha
  rw [updateFirst_eq_map h.nodup (h.mem_iff.mpr ha) hp hpa]
  have hmap := @map α κ _ key l d (fun b => if key b = key a then f b else b) h ?_
  · convert hmap using 1
    funext j
    by_cases hj : j = key a
    · subst hj
      rw [Function.update_self, ha, Option.map_some, if_pos rfl]
    · rw [Function.update_of_ne hj]
      cases hd : d j with
      | none => rfl
      | some b =>
        rw [Option.map_some, if_neg (h.key_eq hd ▸ hj)]
  · intro b
    split
    · exact hkey b
    · rfl

end Tabulates
end Ucore.Library
