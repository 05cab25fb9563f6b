import Mathlib.Data.List.Infix
import Mathlib.Data.List.Dedup
import Mathlib.Data.List.Pairwise
import Mathlib.Tactic.Common

/-!
A store of values at the leaves of a tree.

A path is the list of keys from the root. A leaf has no leaf above or below it, which the
store carries as a field; writing a leaf removes every leaf above and below it. Reading,
writing, the subtree at a path and the keys of its children are the whole interface.
-/

namespace Lib

variable {K V : Type*}

/-- Neither path is a prefix of the other. -/
def Apart (p q : List K) : Prop := ¬ p <+: q ∧ ¬ q <+: p

namespace Apart

lemma symm {p q : List K} (h : Apart p q) : Apart q p := And.symm h

lemma ne {p q : List K} (h : Apart p q) : p ≠ q := by
  rintro rfl
  exact h.1 (List.prefix_refl p)

/-- Paths that continue two paths that are apart are apart. -/
lemma extend {p q p' q' : List K} (h : Apart p q) (hp : p <+: p') (hq : q <+: q') :
    Apart p' q' := by
  refine ⟨fun hpq => ?_, fun hqp => ?_⟩
  · rcases List.prefix_or_prefix_of_prefix (hp.trans hpq) hq with h1 | h1
    · exact h.1 h1
    · exact h.2 h1
  · rcases List.prefix_or_prefix_of_prefix hp (hq.trans hqp) with h1 | h1
    · exact h.1 h1
    · exact h.2 h1

/-- What two paths begin with alike does not matter. -/
lemma append_left_iff (r : List K) {p q : List K} : Apart (r ++ p) (r ++ q) ↔ Apart p q := by
  unfold Apart
  rw [List.prefix_append_right_inj, List.prefix_append_right_inj]

/-- Different paths of one length are apart. -/
lemma of_length_eq {p q : List K} (hlen : p.length = q.length) (hne : p ≠ q) : Apart p q :=
  ⟨fun h => hne (h.eq_of_length hlen), fun h => hne (h.eq_of_length hlen.symm).symm⟩

end Apart

/-- Values at the leaves of a tree. -/
structure PathStore (K V : Type*) where
  entries : List (List K × V)
  apart : entries.Pairwise fun e f => Apart e.1 f.1

namespace PathStore

variable [DecidableEq K]

instance (p q : List K) : Decidable (Apart p q) := inferInstanceAs (Decidable (_ ∧ _))

/-- The store with no leaf. -/
def empty : PathStore K V := ⟨[], List.Pairwise.nil⟩

/-- The value at the leaf `p`. -/
def get (s : PathStore K V) (p : List K) : Option V :=
  (s.entries.find? fun e => e.1 = p).map Prod.snd

/-- Write a leaf: the leaves above and below it go. -/
def set (s : PathStore K V) (p : List K) (v : V) : PathStore K V where
  entries := (s.entries.filter fun e => Apart p e.1) ++ [(p, v)]
  apart := by
    refine List.pairwise_append.mpr ⟨s.apart.filter _, List.pairwise_singleton _ _, ?_⟩
    intro e he f hf
    obtain rfl : f = (p, v) := by simpa using hf
    have := (List.mem_filter.mp he).2
    exact Apart.symm (by simpa using this)

/-- The subtree at `p`, its paths counted from `p`. -/
def below (s : PathStore K V) (p : List K) : PathStore K V where
  entries := s.entries.filterMap fun e =>
    if p <+: e.1 then some (e.1.drop p.length, e.2) else none
  apart := by
    refine List.Pairwise.filterMap _ ?_ s.apart
    intro e f hef e' he' f' hf'
    split at he' <;> rename_i hpe <;> simp only [Option.some.injEq, reduceCtorEq] at he'
    split at hf' <;> rename_i hpf <;> simp only [Option.some.injEq, reduceCtorEq] at hf'
    subst he' hf'
    obtain ⟨r, hr⟩ := hpe
    obtain ⟨t, ht⟩ := hpf
    rw [Apart, ← hr, ← ht] at hef
    simpa [Apart, ← hr, ← ht] using hef

/-- The keys of the children of the root, each once. -/
def children (s : PathStore K V) : List K := (s.entries.filterMap fun e => e.1.head?).dedup

/-- The tree has a leaf. -/
def Exists (s : PathStore K V) : Prop := s.entries ≠ []

instance (s : PathStore K V) : Decidable s.Exists := inferInstanceAs (Decidable (_ ≠ _))

omit [DecidableEq K] in
/-- Two entries at one path are one entry. -/
lemma eq_of_mem {s : PathStore K V} {p : List K} {v w : V} (hv : (p, v) ∈ s.entries)
    (hw : (p, w) ∈ s.entries) : v = w := by
  by_contra hne
  have : Std.Symm fun e f : List K × V => Apart e.1 f.1 := ⟨fun _ _ h => h.symm⟩
  have hpp := s.apart.forall hv hw fun h => hne (Prod.ext_iff.mp h).2
  exact hpp.ne rfl

lemma get_eq_some_iff {s : PathStore K V} {p : List K} {v : V} :
    s.get p = some v ↔ (p, v) ∈ s.entries := by
  unfold get
  constructor
  · intro h
    obtain ⟨e, he, rfl⟩ := Option.map_eq_some_iff.mp h
    have hp : e.1 = p := by simpa using List.find?_some he
    rw [← hp]
    exact List.mem_of_find?_eq_some he
  · intro h
    cases hf : s.entries.find? fun e => e.1 = p with
    | none => simpa using List.find?_eq_none.mp hf _ h
    | some e =>
      have hp : e.1 = p := by simpa using List.find?_some hf
      obtain ⟨q, w⟩ := e
      obtain rfl : q = p := hp
      simp [eq_of_mem (List.mem_of_find?_eq_some hf) h]

/-- A leaf has no leaf above or below it. -/
lemma apart_of_get {s : PathStore K V} {p q : List K} {v w : V} (hv : s.get p = some v)
    (hw : s.get q = some w) (hne : p ≠ q) : Apart p q := by
  have : Std.Symm fun e f : List K × V => Apart e.1 f.1 := ⟨fun _ _ h => h.symm⟩
  exact s.apart.forall (get_eq_some_iff.mp hv) (get_eq_some_iff.mp hw)
    fun h => hne (Prod.ext_iff.mp h).1

@[simp] lemma get_empty (p : List K) : (empty : PathStore K V).get p = none := rfl

@[simp] lemma get_set_self (s : PathStore K V) (p : List K) (v : V) :
    (s.set p v).get p = some v :=
  get_eq_some_iff.mpr (by simp [set])

/-- Writing a leaf changes nothing at the paths apart from it. -/
lemma get_set_of_apart {s : PathStore K V} {p q : List K} (v : V) (h : Apart p q) :
    (s.set p v).get q = s.get q := by
  refine Option.ext fun w => ?_
  simp only [get_eq_some_iff, set, List.mem_append, List.mem_filter, List.mem_singleton,
    Prod.mk.injEq, decide_eq_true_eq]
  constructor
  · rintro (⟨hw, -⟩ | ⟨rfl, -⟩)
    · exact hw
    · exact absurd rfl h.ne
  · exact fun hw => Or.inl ⟨hw, h⟩

/-- What a written store holds: the leaf just written, and the old leaves apart from it. -/
lemma get_set_eq_some {s : PathStore K V} {p q : List K} {v w : V}
    (h : (s.set p v).get q = some w) : (q = p ∧ w = v) ∨ (Apart p q ∧ s.get q = some w) := by
  simp only [get_eq_some_iff, set, List.mem_append, List.mem_filter, List.mem_singleton,
    Prod.mk.injEq, decide_eq_true_eq] at h ⊢
  tauto

@[simp] lemma get_below (s : PathStore K V) (p q : List K) :
    (s.below p).get q = s.get (p ++ q) := by
  refine Option.ext fun w => ?_
  simp only [get_eq_some_iff, below, List.mem_filterMap]
  constructor
  · rintro ⟨⟨t, u⟩, he, h⟩
    split at h <;> rename_i hpe <;> simp only [Option.some.injEq, reduceCtorEq] at h
    obtain ⟨r, rfl⟩ := hpe
    obtain ⟨rfl, rfl⟩ : r = q ∧ u = w := by simpa using h
    exact he
  · intro h
    exact ⟨_, h, by simp⟩

/-- The subtree of a subtree. -/
lemma below_below (s : PathStore K V) (p q : List K) : (s.below p).below q = s.below (p ++ q) := by
  unfold below
  simp only [mk.injEq, List.filterMap_filterMap]
  refine List.filterMap_congr fun e _ => ?_
  by_cases hp : p <+: e.1
  · obtain ⟨r, hr⟩ := hp
    have hdrop : p.drop (p.length + q.length) = [] := List.drop_eq_nil_of_le (by omega)
    simp [← hr, List.drop_append, List.prefix_append_right_inj, hdrop]
  · have hpq : ¬ p ++ q <+: e.1 := fun h => hp ((List.prefix_append p q).trans h)
    simp [hp, hpq]

lemma exists_iff {s : PathStore K V} : s.Exists ↔ ∃ p v, s.get p = some v := by
  simp only [Exists, get_eq_some_iff]
  constructor
  · intro h
    obtain ⟨e, he⟩ := List.exists_mem_of_ne_nil _ h
    exact ⟨e.1, e.2, he⟩
  · rintro ⟨p, v, h⟩ h0
    simp [h0] at h

lemma mem_children {s : PathStore K V} {k : K} :
    k ∈ s.children ↔ ∃ q v, s.get (k :: q) = some v := by
  simp only [children, List.mem_dedup, List.mem_filterMap, get_eq_some_iff]
  constructor
  · rintro ⟨⟨p, v⟩, he, hk⟩
    cases p with
    | nil => simp at hk
    | cons j q =>
      obtain rfl : j = k := by simpa using hk
      exact ⟨q, v, he⟩
  · rintro ⟨q, v, h⟩
    exact ⟨_, h, rfl⟩

lemma nodup_children (s : PathStore K V) : s.children.Nodup := List.nodup_dedup _

end PathStore

end Lib
