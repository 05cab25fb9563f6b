import Mathlib.Data.List.Infix
import Mathlib.Tactic.Common

/-!
The pieces of a text between the occurrences of a separator, the empty ones left out.
-/

namespace Lib

variable {α : Type*} [DecidableEq α]

/-- The non-empty pieces of `s` between its separators. -/
def pieces (sep : α) (s : List α) : List (List α) := (s.splitOn sep).filter (· ≠ [])

namespace Pieces

variable {sep : α} {s : List α}

/-- A text splits at every separator. -/
lemma pieces_append (s t : List α) : pieces sep (s ++ sep :: t) = pieces sep s ++ pieces sep t := by
  unfold pieces
  rw [List.splitOn_append_cons_self, List.filter_append]

lemma pieces_of_notMem (hs : sep ∉ s) : pieces sep s = if s = [] then [] else [s] := by
  unfold pieces
  rw [List.splitOn_eq_singleton hs]
  by_cases h : s = [] <;> simp [h]

/-- A non-empty text without a separator is one piece. -/
lemma pieces_eq_singleton (hs : sep ∉ s) (hne : s ≠ []) : pieces sep s = [s] := by
  rw [pieces_of_notMem hs, if_neg hne]

/-- The first piece ends at the first separator. -/
lemma head_pieces_append (hs : sep ∉ s) (hne : s ≠ []) (t : List α) :
    (pieces sep (s ++ sep :: t)).head? = some s := by
  rw [pieces_append, pieces_eq_singleton hs hne]
  rfl

/-- A piece is not empty, has no separator and is made of characters of the text. -/
lemma of_mem_pieces {q : List α} (h : q ∈ pieces sep s) : q ≠ [] ∧ sep ∉ q ∧ q ⊆ s := by
  induction hn : s.length using Nat.strong_induction_on generalizing s with
  | _ n ih =>
  subst hn
  by_cases hsep : sep ∈ s
  · obtain ⟨a, t, rfl, ha⟩ := List.eq_append_cons_of_mem hsep
    rw [pieces_append] at h
    rcases List.mem_append.mp h with h | h
    · rw [pieces_of_notMem ha] at h
      split at h
      · simp at h
      · rename_i hne
        obtain rfl : q = a := by simpa using h
        exact ⟨hne, ha, by simp⟩
    · obtain ⟨h1, h2, h3⟩ := ih t.length (by simp; omega) h rfl
      exact ⟨h1, h2, fun c hc => by simp [h3 hc]⟩
  · rw [pieces_of_notMem hsep] at h
    split at h
    · simp at h
    · rename_i hne
      obtain rfl : q = s := by simpa using h
      exact ⟨hne, hsep, List.Subset.refl q⟩

/-- Every other character of a text is in a piece. -/
lemma exists_mem_pieces {c : α} (hc : c ∈ s) (hne : c ≠ sep) : ∃ q ∈ pieces sep s, c ∈ q := by
  induction hn : s.length using Nat.strong_induction_on generalizing s with
  | _ n ih =>
  subst hn
  by_cases hsep : sep ∈ s
  · obtain ⟨a, t, rfl, ha⟩ := List.eq_append_cons_of_mem hsep
    rw [pieces_append]
    simp only [List.mem_append, List.mem_cons, hne, false_or] at hc
    rcases hc with hc | hc
    · refine ⟨a, List.mem_append_left _ ?_, hc⟩
      rw [pieces_eq_singleton ha (List.ne_nil_of_mem hc)]
      exact List.mem_singleton_self a
    · obtain ⟨q, hq, hcq⟩ := ih t.length (by simp; omega) hc rfl
      exact ⟨q, List.mem_append_right _ hq, hcq⟩
  · rw [pieces_eq_singleton hsep (List.ne_nil_of_mem hc)]
    exact ⟨s, List.mem_singleton_self s, hc⟩

end Pieces

end Lib
