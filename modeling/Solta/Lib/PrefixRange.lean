import Mathlib.Data.List.Infix
import Solta.Lib.SortedList

/-!
Ranges of keys with one beginning.

Keys are words, ordered symbol by symbol. In a sorted list the keys that begin with one word stand
together, and a walk that starts at the word and ends at the first key that does not begin with it
goes through all of them.
-/

namespace Lib.PrefixRange

open SortedList

variable {α V : Type*} [Ord α] [DecidableEq α]

/-- The entries from a key on. -/
def seek (p : List α) (es : List (List α × V)) : List (List α × V) :=
  es.dropWhile fun e => compare e.1 p = .lt

/-- The walk from a word on, as long as the keys begin with it. -/
def range (p : List α) (es : List (List α × V)) : List (List α × V) :=
  (seek p es).takeWhile fun e => p <+: e.1

variable [Std.TransOrd α] [Std.LawfulEqOrd α] {p k : List α} {es : List (List α × V)}

omit [DecidableEq α] [Std.TransOrd α] in
lemma not_lt_of_prefix (h : p <+: k) : compare k p ≠ .lt := by
  induction p generalizing k with
  | nil => cases k <;> simp [List.compare_cons_nil]
  | cons a p ih =>
    obtain ⟨s, rfl⟩ := h
    rw [List.cons_append, List.compare_cons_cons, Std.ReflOrd.compare_self, Ordering.eq_then]
    exact ih (List.prefix_append p s)

omit [DecidableEq α] [Std.TransOrd α] in
/-- **Between a word and a key that begins with it**, all keys begin with it. -/
lemma prefix_of_between {s : List α} (hlow : compare k p ≠ .lt)
    (hhigh : compare k (p ++ s) ≠ .gt) : p <+: k := by
  induction p generalizing k with
  | nil => exact List.nil_prefix
  | cons a p ih =>
    cases k with
    | nil => exact absurd List.compare_nil_cons hlow
    | cons b k =>
      rw [List.cons_append, List.compare_cons_cons] at hhigh
      rw [List.compare_cons_cons] at hlow
      cases hab : compare b a with
      | lt =>
        rw [hab] at hlow
        exact absurd rfl hlow
      | gt =>
        rw [hab] at hhigh
        exact absurd rfl hhigh
      | eq =>
        rw [hab, Ordering.eq_then] at hlow hhigh
        rw [Std.LawfulEqOrd.eq_of_compare hab]
        exact (List.prefix_cons_inj a).mpr (ih hlow hhigh)

omit [Std.TransOrd α] in
/-- From the first key on that is not before a word, those that begin with it come first. -/
lemma exists_rest (hs : Sorted compare es) (hlow : ∀ e ∈ es, compare e.1 p ≠ .lt) :
    ∃ rest, es = es.filter (fun e => p <+: e.1) ++ rest ∧ ∀ e ∈ rest, ¬ p <+: e.1 := by
  induction es with
  | nil => exact ⟨[], rfl, by simp⟩
  | cons e es ih =>
    obtain ⟨he, hes⟩ := sorted_cons.mp hs
    by_cases hp : p <+: e.1
    · obtain ⟨rest, heq, hrest⟩ := ih hes fun f hf => hlow f (by simp [hf])
      refine ⟨rest, ?_, hrest⟩
      rw [List.filter_cons, if_pos (decide_eq_true hp), List.cons_append, ← heq]
    · have hnone : ∀ f ∈ e :: es, ¬ p <+: f.1 := by
        intro f hf hpre
        rcases List.mem_cons.mp hf with rfl | hf
        · exact hp hpre
        · obtain ⟨s, hs⟩ := hpre
          refine hp (prefix_of_between (s := s) (hlow e (by simp)) ?_)
          rw [hs, he f hf]
          simp
      refine ⟨e :: es, ?_, hnone⟩
      rw [List.filter_eq_nil_iff.mpr fun f hf => by simpa using hnone f hf, List.nil_append]

/-- **A walk** goes through all entries whose keys begin with a word. -/
theorem seek_eq (hs : Sorted compare es) (p : List α) :
    ∃ rest, seek p es = es.filter (fun e => p <+: e.1) ++ rest ∧ ∀ e ∈ rest, ¬ p <+: e.1 := by
  induction es with
  | nil => exact ⟨[], rfl, by simp⟩
  | cons e es ih =>
    obtain ⟨he, hes⟩ := sorted_cons.mp hs
    by_cases hlt : compare e.1 p = .lt
    · have hnot : ¬ p <+: e.1 := fun hpre => not_lt_of_prefix hpre hlt
      obtain ⟨rest, heq, hrest⟩ := ih hes
      refine ⟨rest, ?_, hrest⟩
      rw [List.filter_cons, if_neg (by simpa using hnot), ← heq, seek,
        List.dropWhile_cons_of_pos (by simpa using hlt)]
      rfl
    · have hall : ∀ f ∈ e :: es, compare f.1 p ≠ .lt := by
        intro f hf hf'
        rcases List.mem_cons.mp hf with rfl | hf
        · exact hlt hf'
        · exact hlt (Std.TransCmp.lt_trans (he f hf) hf')
      rw [seek, List.dropWhile_cons_of_neg (by simpa using hlt)]
      exact exists_rest hs hall

theorem range_eq (hs : Sorted compare es) (p : List α) :
    range p es = es.filter fun e => p <+: e.1 := by
  obtain ⟨rest, heq, hrest⟩ := seek_eq hs p
  rw [range, heq, List.takeWhile_append_of_pos fun e he => (List.mem_filter.mp he).2]
  cases rest with
  | nil => rw [List.takeWhile_nil, List.append_nil]
  | cons e rest =>
    rw [List.takeWhile_cons_of_neg (by simpa using hrest e (by simp)), List.append_nil]

end Lib.PrefixRange
