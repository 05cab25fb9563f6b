import Mathlib.Order.Lattice
import Mathlib.Data.List.Pairwise
import Mathlib.Tactic.Common

/-!
The first element of a list that attains the greatest value.

A loop that keeps the greatest value so far and replaces it only by a greater one ends at
the first maximum; the lemmas say what one more element does to it.
-/

namespace Lib

variable {α β : Type*} [LinearOrder β]

/-- `p` attains the greatest value of `f` over the list, and all elements before it are less. -/
structure FirstMax (f : α → β) (l : List α) (p : α) : Prop where
  le : ∀ q ∈ l, f q ≤ f p
  first : ∃ s t, l = s ++ p :: t ∧ ∀ q ∈ s, f q < f p

namespace FirstMax

variable {f : α → β} {l : List α} {p q : α}

lemma mem (h : FirstMax f l p) : p ∈ l := by
  obtain ⟨s, t, rfl, -⟩ := h.first
  simp

/-- An element greater than all before it is the new first maximum. -/
lemma snoc_of_lt (h : ∀ x ∈ l, f x < f q) : FirstMax f (l ++ [q]) q := by
  refine ⟨fun x hx => ?_, l, [], rfl, h⟩
  rcases List.mem_append.mp hx with hx | hx
  · exact (h x hx).le
  · rw [List.mem_singleton.mp hx]

/-- An element that is not greater changes nothing. -/
lemma snoc_of_le (h : FirstMax f l p) (hq : f q ≤ f p) : FirstMax f (l ++ [q]) p := by
  obtain ⟨s, t, rfl, hs⟩ := h.first
  refine ⟨fun x hx => ?_, s, t ++ [q], by simp, hs⟩
  rcases List.mem_append.mp hx with hx | hx
  · exact h.le x hx
  · rwa [List.mem_singleton.mp hx]

/-- In a list that is in order the first maximum comes before all others. -/
lemma eq_or_of_pairwise {r : α → α → Prop} (h : FirstMax f l p) (hl : l.Pairwise r)
    (hq : q ∈ l) (heq : f q = f p) : q = p ∨ r p q := by
  obtain ⟨s, t, rfl, hs⟩ := h.first
  rcases List.mem_append.mp hq with hq | hq
  · exact absurd heq (hs q hq).ne
  · rcases List.mem_cons.mp hq with hq | hq
    · exact Or.inl hq
    · have hcons := (List.pairwise_append.mp hl).2.1
      exact Or.inr ((List.pairwise_cons.mp hcons).1 q hq)

end FirstMax

end Lib
