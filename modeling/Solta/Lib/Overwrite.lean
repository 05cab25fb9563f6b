import Solta.Lib.PathStore

/-!
Overwriting parts of a tree.

A tree is what it holds at its leaves. Writing a tree that is not empty at a path takes away all
that was at the path and below it, and the leaves above. What a sequence of writes leaves at
a path is decided by the last of them that is at, above or below that path.
-/

namespace Lib.Overwrite

variable {K V : Type*}

/-- What a tree holds at the path of each of its leaves. -/
abbrev Leaves (K V : Type*) := List K → Option V

/-- The tree below a path. -/
def below (f : Leaves K V) (p : List K) : Leaves K V := fun q => f (p ++ q)

@[simp] lemma below_nil (f : Leaves K V) : below f [] = f := rfl

lemma below_below (f : Leaves K V) (p q : List K) : below (below f p) q = below f (p ++ q) := by
  funext r
  simp [below]

variable [DecidableEq K]

/-- Write the tree `m`, which is not empty, at the path `p`. -/
def put (f : Leaves K V) (p : List K) (m : Leaves K V) : Leaves K V := fun q =>
  if p <+: q then m (q.drop p.length) else if q <+: p then none else f q

variable {f g m m' : Leaves K V} {p p' q r : List K}

@[simp] lemma put_nil (f m : Leaves K V) : put f [] m = m := by
  funext q
  simp [put]

@[simp] lemma put_append (f m : Leaves K V) (p q : List K) : put f p m (p ++ q) = m q := by
  simp [put]

lemma put_above (hq : q <+: p) (hne : q ≠ p) : put f p m q = none := by
  have hnot : ¬ p <+: q := fun h => hne (hq.eq_of_length_le h.length_le)
  simp [put, hq, hnot]

lemma put_apart (h : Apart p q) : put f p m q = f q := by
  simp [put, h.1, h.2]

/-- Where a path stands to another. -/
lemma below_or_above_or_apart (p q : List K) :
    (∃ r, q = p ++ r) ∨ (q <+: p ∧ q ≠ p) ∨ Apart p q := by
  by_cases hp : p <+: q
  · obtain ⟨r, rfl⟩ := hp
    exact .inl ⟨r, rfl⟩
  · by_cases hq : q <+: p
    · exact .inr (.inl ⟨hq, fun h => hp (h ▸ List.prefix_refl p)⟩)
    · exact .inr (.inr ⟨hp, hq⟩)

lemma put_cons (f m : Leaves K V) (k : K) (p : List K) (k' : K) (q : List K) :
    put f (k :: p) m (k' :: q) =
      if k = k' then put (fun r => f (k :: r)) p m q else f (k' :: q) := by
  by_cases h : k = k'
  · subst h
    simp [put, List.cons_prefix_cons]
  · simp [put, List.cons_prefix_cons, h, Ne.symm h]

/-- What is below a path of the written tree. -/
lemma below_put (f m : Leaves K V) (p q : List K) :
    below (put f (p ++ q) m) p = put (below f p) q m := by
  funext r
  simp [below, put, List.prefix_append_right_inj]

/-- Take away the leaves at a path and above it. -/
def clear (f : Leaves K V) (p : List K) : Leaves K V := fun q => if q <+: p then none else f q

/-! ### Sequences of writes -/

/-- Write one tree after the other. -/
def puts (f : Leaves K V) (ws : List (List K × Leaves K V)) : Leaves K V :=
  ws.foldl (fun f w => put f w.1 w.2) f

@[simp] lemma puts_nil (f : Leaves K V) : puts f [] = f := rfl

lemma puts_cons (f : Leaves K V) (w : List K × Leaves K V) (ws : List (List K × Leaves K V)) :
    puts f (w :: ws) = puts (put f w.1 w.2) ws := rfl

lemma puts_append (f : Leaves K V) (ws vs : List (List K × Leaves K V)) :
    puts f (ws ++ vs) = puts (puts f ws) vs := List.foldl_append

lemma puts_snoc (f : Leaves K V) (ws : List (List K × Leaves K V)) (w : List K × Leaves K V) :
    puts f (ws ++ [w]) = put (puts f ws) w.1 w.2 := puts_append f ws [w]

/-- What a tree holds at a path where nothing is written. -/
lemma puts_of_apart {ws : List (List K × Leaves K V)} (h : ∀ w ∈ ws, Apart w.1 q) :
    puts f ws q = f q := by
  induction ws generalizing f with
  | nil => rfl
  | cons w ws ih =>
    rw [puts_cons, ih fun v hv => h v (by simp [hv]), put_apart (h w (by simp))]

/-- **The last write decides**: nothing that was there before matters where something is written. -/
lemma puts_congr {ws : List (List K × Leaves K V)} (h : ∃ w ∈ ws, ¬ Apart w.1 q) :
    puts f ws q = puts g ws q := by
  induction ws using List.reverseRecOn with
  | nil => simp at h
  | append_singleton ws w ih =>
    rw [puts_snoc, puts_snoc]
    rcases below_or_above_or_apart w.1 q with ⟨r, hr⟩ | ⟨hpre, hne⟩ | hapart
    · rw [hr, put_append, put_append]
    · rw [put_above hpre hne, put_above hpre hne]
    · rw [put_apart hapart, put_apart hapart]
      refine ih ?_
      obtain ⟨v, hv, hnot⟩ := h
      rcases List.mem_append.mp hv with hv | hv
      · exact ⟨v, hv, hnot⟩
      · rw [List.mem_singleton.mp hv] at hnot
        exact absurd hapart hnot

/-- **Writing again** what was written last changes nothing. -/
theorem puts_again (f : Leaves K V) (vs ws : List (List K × Leaves K V)) :
    puts (puts f (vs ++ ws)) ws = puts f (vs ++ ws) := by
  funext q
  by_cases h : ∃ w ∈ ws, ¬ Apart w.1 q
  · rw [puts_append]
    exact puts_congr h
  · exact puts_of_apart fun w hw => by_contra fun hnot => h ⟨w, hw, hnot⟩

/-- Writing some of the writes before all of them changes nothing. -/
lemma puts_sublist (f : Leaves K V) {vs ws : List (List K × Leaves K V)} (h : vs.Sublist ws) :
    puts (puts f vs) ws = puts f ws := by
  funext q
  by_cases hex : ∃ w ∈ ws, ¬ Apart w.1 q
  · exact puts_congr hex
  · have hws : ∀ w ∈ ws, Apart w.1 q := fun w hw => by_contra fun hnot => hex ⟨w, hw, hnot⟩
    rw [puts_of_apart hws, puts_of_apart hws, puts_of_apart fun v hv => hws v (h.subset hv)]

/-- A write says nothing about paths apart from it. -/
lemma puts_drop {ws vs : List (List K × Leaves K V)} {w : List K × Leaves K V}
    (h : Apart w.1 q) : puts f (ws ++ w :: vs) q = puts f (ws ++ vs) q := by
  by_cases hvs : ∃ v ∈ vs, ¬ Apart v.1 q
  · rw [puts_append, puts_append, puts_cons]
    exact puts_congr hvs
  · have hall : ∀ v ∈ vs, Apart v.1 q := fun v hv => by_contra fun hnot => hvs ⟨v, hv, hnot⟩
    rw [puts_append, puts_append, puts_cons, puts_of_apart hall, puts_of_apart hall, put_apart h]

/-- A write that a later one covers says nothing. -/
lemma puts_shadowed {ws vs : List (List K × Leaves K V)} {w v : List K × Leaves K V} (hv : v ∈ vs)
    (h : v.1 <+: w.1) : puts f (ws ++ w :: vs) = puts f (ws ++ vs) := by
  funext q
  by_cases hq : Apart w.1 q
  · exact puts_drop hq
  · rw [puts_append, puts_append, puts_cons]
    refine puts_congr ⟨v, hv, fun happart => hq ?_⟩
    exact happart.extend h (List.prefix_refl q)

/-- Above a write, where no write is above, there is nothing. -/
lemma puts_above {ws : List (List K × Leaves K V)} (hnot : ∀ w ∈ ws, ¬ w.1 <+: q)
    (h : ∃ w ∈ ws, q <+: w.1) : puts f ws q = none := by
  induction ws using List.reverseRecOn with
  | nil => simp at h
  | append_singleton ws w ih =>
    have hw : ¬ w.1 <+: q := hnot w (by simp)
    rw [puts_snoc]
    by_cases hq : q <+: w.1
    · exact put_above hq fun heq => hw (heq ▸ List.prefix_refl _)
    · rw [put_apart ⟨hw, hq⟩]
      refine ih (fun v hv => hnot v (by simp [hv])) ?_
      obtain ⟨v, hv, hpre⟩ := h
      rcases List.mem_append.mp hv with hv | hv
      · exact ⟨v, hv, hpre⟩
      · rw [List.mem_singleton.mp hv] at hpre
        exact absurd hpre hq

/-- A leaf was there, or was written. -/
lemma eq_some_of_puts {ws : List (List K × Leaves K V)} {v : V} (h : puts f ws q = some v) :
    f q = some v ∨ ∃ w ∈ ws, ∃ r, q = w.1 ++ r ∧ w.2 r = some v := by
  induction ws using List.reverseRecOn with
  | nil => exact .inl h
  | append_singleton ws w ih =>
    rw [puts_snoc] at h
    rcases below_or_above_or_apart w.1 q with ⟨r, rfl⟩ | ⟨hpre, hne⟩ | hapart
    · rw [put_append] at h
      exact .inr ⟨w, by simp, r, rfl, h⟩
    · rw [put_above hpre hne] at h
      cases h
    · rw [put_apart hapart] at h
      rcases ih h with hold | ⟨u, hu, hr⟩
      · exact .inl hold
      · exact .inr ⟨u, by simp [hu], hr⟩

/-- A write is a write into what is below a path above it. -/
lemma put_split (f m : Leaves K V) (p r : List K) :
    put f (p ++ r) m = put f p (put (below f p) r m) := by
  funext q
  rcases below_or_above_or_apart p q with ⟨s, rfl⟩ | ⟨hpre, hne⟩ | hapart
  · rw [put_append]
    exact congrFun (below_put f m p r) s
  · rw [put_above hpre hne]
    refine put_above (hpre.trans (List.prefix_append p r)) fun h => hne ?_
    exact hpre.eq_of_length_le (by rw [h]; simp)
  · rw [put_apart hapart, put_apart (hapart.extend (List.prefix_append p r) (List.prefix_refl q))]

/-- A write at or above an earlier one takes its place. -/
lemma put_covered (f m m' : Leaves K V) (h : p <+: p') : put (put f p' m') p m = put f p m := by
  funext q
  rcases below_or_above_or_apart p q with ⟨r, rfl⟩ | ⟨hpre, hne⟩ | hapart
  · rw [put_append, put_append]
  · rw [put_above hpre hne, put_above hpre hne]
  · rw [put_apart hapart, put_apart hapart]
    exact put_apart (hapart.extend h (List.prefix_refl q))

end Lib.Overwrite
