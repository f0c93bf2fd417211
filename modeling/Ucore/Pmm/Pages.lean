import Ucore.Libs.Defs
import Ucore.Library.Tiling
import Mathlib.Logic.Function.Basic

/-!
The page descriptors that physical memory managers work on (`struct Page` of
`memlayout.h`), addressed by their index in the array `pages`.
-/
namespace Ucore.Pmm

open Library Libs

/-- More descriptors than the kernel half of the Sv39 address space has room for. -/
def pageLimit : ℕ := 2 ^ 32

theorem uint32_of_page {v : ℕ} (h : v < pageLimit) : uint32 v = v := uint32_of_lt h

/-- The fields of `struct Page` that managers use; `flags` holds two bits. -/
structure PageDescs where
  pageReserved : ℕ → Bool
  pageProperty : ℕ → Bool
  property : ℕ → ℕ
  ref : ℕ → ℤ

namespace PageDescs

def setPageProperty (d : PageDescs) (p : ℕ) : PageDescs :=
  { d with pageProperty := Function.update d.pageProperty p true }

def clearPageProperty (d : PageDescs) (p : ℕ) : PageDescs :=
  { d with pageProperty := Function.update d.pageProperty p false }

/-- `p->flags = 0` -/
def clearFlags (d : PageDescs) (p : ℕ) : PageDescs :=
  { d with
    pageReserved := Function.update d.pageReserved p false
    pageProperty := Function.update d.pageProperty p false }

def setProperty (d : PageDescs) (p v : ℕ) : PageDescs :=
  { d with property := Function.update d.property p (uint32 v) }

def setPageRef (d : PageDescs) (p : ℕ) (v : ℤ) : PageDescs :=
  { d with ref := Function.update d.ref p v }

/-- The first loop of `init_memmap`: the pages must be reserved. -/
def initPages (d : PageDescs) (p : ℕ) : ℕ → Option PageDescs
  | 0 => some d
  | n + 1 =>
    if d.pageReserved p then
      initPages (((d.clearFlags p).setProperty p 0).setPageRef p 0) (p + 1) n
    else none

/-- What the loops over the pages of a block leave: the descriptors outside the block
and, inside, no flag. -/
structure Swept (d d' : PageDescs) (b : Block) : Prop where
  reserved_in : ∀ q ∈ b, d'.pageReserved q = false
  head_in : ∀ q ∈ b, d'.pageProperty q = false
  reserved_out : ∀ q, q ∉ b → d'.pageReserved q = d.pageReserved q
  head_out : ∀ q, q ∉ b → d'.pageProperty q = d.pageProperty q
  property_out : ∀ q, q ∉ b → d'.property q = d.property q

theorem swept_nil (d : PageDescs) (p : ℕ) : Swept d d ⟨p, 0⟩ where
  reserved_in q hq := absurd hq (by simp [Block.mem_def])
  head_in q hq := absurd hq (by simp [Block.mem_def])
  reserved_out _ _ := rfl
  head_out _ _ := rfl
  property_out _ _ := rfl

/-- One page first, then the rest. -/
theorem Swept.cons {d d₁ d' : PageDescs} {p n : ℕ} (h : Swept d₁ d' ⟨p + 1, n⟩)
    (hr : d₁.pageReserved p = false) (hh : d₁.pageProperty p = false)
    (hro : ∀ q, q ≠ p → d₁.pageReserved q = d.pageReserved q)
    (hho : ∀ q, q ≠ p → d₁.pageProperty q = d.pageProperty q)
    (hpo : ∀ q, q ≠ p → d₁.property q = d.property q) : Swept d d' ⟨p, n + 1⟩ := by
  have hfirst : p ∉ (⟨p + 1, n⟩ : Block) := by
    simp only [Block.mem_def]
    omega
  have hcases : ∀ q ∈ (⟨p, n + 1⟩ : Block), q = p ∨ q ∈ (⟨p + 1, n⟩ : Block) := by
    intro q hq
    simp only [Block.mem_def] at hq ⊢
    omega
  have hout : ∀ q, q ∉ (⟨p, n + 1⟩ : Block) → q ∉ (⟨p + 1, n⟩ : Block) ∧ q ≠ p := by
    intro q hq
    simp only [Block.mem_def] at hq ⊢
    omega
  refine ⟨?_, ?_, ?_, ?_, ?_⟩
  · intro q hq
    rcases hcases q hq with rfl | hq
    · rw [h.reserved_out q hfirst, hr]
    · exact h.reserved_in q hq
  · intro q hq
    rcases hcases q hq with rfl | hq
    · rw [h.head_out q hfirst, hh]
    · exact h.head_in q hq
  · intro q hq
    obtain ⟨h1, h2⟩ := hout q hq
    rw [h.reserved_out q h1, hro q h2]
  · intro q hq
    obtain ⟨h1, h2⟩ := hout q hq
    rw [h.head_out q h1, hho q h2]
  · intro q hq
    obtain ⟨h1, h2⟩ := hout q hq
    rw [h.property_out q h1, hpo q h2]

theorem initPages_swept {d : PageDescs} {p n : ℕ}
    (h : ∀ q ∈ (⟨p, n⟩ : Block), d.pageReserved q = true) :
    ∃ d', d.initPages p n = some d' ∧ Swept d d' ⟨p, n⟩ := by
  induction n generalizing d p with
  | zero => exact ⟨d, rfl, swept_nil d p⟩
  | succ n ih =>
    have hp : d.pageReserved p = true := h p (by simp only [Block.mem_def]; omega)
    obtain ⟨d', hd', hsw⟩ := ih (d := ((d.clearFlags p).setProperty p 0).setPageRef p 0)
      (p := p + 1) (by
        intro q hq
        have hne : q ≠ p := by
          simp only [Block.mem_def] at hq
          omega
        have hq' : q ∈ (⟨p, n + 1⟩ : Block) := by
          simp only [Block.mem_def] at hq ⊢
          omega
        have hkeep := h q hq'
        simpa [clearFlags, setProperty, setPageRef, hne] using hkeep)
    refine ⟨d', ?_, hsw.cons ?_ ?_ ?_ ?_ ?_⟩
    · rw [initPages, if_pos hp]
      exact hd'
    · simp [clearFlags, setProperty, setPageRef]
    · simp [clearFlags, setProperty, setPageRef]
    · intro q hq
      simp [clearFlags, setProperty, setPageRef, hq]
    · intro q hq
      simp [clearFlags, setProperty, setPageRef, hq]
    · intro q hq
      simp [clearFlags, setProperty, setPageRef, hq]

end PageDescs
end Ucore.Pmm
