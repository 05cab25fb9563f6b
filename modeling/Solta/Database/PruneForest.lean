import Solta.Database.CompoundWrite

/-!
What is pruned from the cache and what is kept.

A forest has marks at some paths, to prune or to keep. The mark that is nearest above a path
decides. Paths are pruned first and kept afterwards, so that nothing below a path that is to be
kept is pruned.
-/

namespace Solta

open Lib

open Lib.SortedList hiding below

namespace FImmutableTree

variable {K T : Type} (cmp : K → K → Ordering)

def valueAtPath : FImmutableTree K T → List K → Option T
  | node v _, [] => v
  | node _ cs, front :: path =>
    match find cmp front cs with
    | some child => child.valueAtPath path
    | none => none

/-- The first value on the way to a path that the predicate holds of. -/
def rootMostValueOnPath (predicate : T → Bool) : FImmutableTree K T → List K → Option T
  | node v _, [] => v.filter predicate
  | node v cs, front :: path =>
    match v.filter predicate, find cmp front cs with
    | some v, _ => some v
    | none, some child => child.rootMostValueOnPath predicate path
    | none, none => none

def findRootMostMatchingPath (predicate : T → Bool) :
    FImmutableTree K T → List K → Option (List K × T)
  | node v _, [] => (v.filter predicate).map fun v => ([], v)
  | node v cs, front :: path =>
    match v.filter predicate, find cmp front cs with
    | some v, _ => some ([], v)
    | none, some child =>
      (child.findRootMostMatchingPath predicate path).map fun r => (front :: r.1, r.2)
    | none, none => none

def leafMostLoop : Option T → FImmutableTree K T → List K → Option T
  | currentValue, _, [] => currentValue
  | currentValue, node _ cs, key :: path =>
    match find cmp key cs with
    | none => currentValue
    | some child => leafMostLoop (child.value.or currentValue) child path

def leafMostValueOnPath (t : FImmutableTree K T) (path : List K) : Option T :=
  leafMostLoop cmp t.value t path

mutual

def containsValueMatching (predicate : T → Bool) : FImmutableTree K T → Bool
  | node v cs => v.any predicate || childContains predicate cs

def childContains (predicate : T → Bool) : List (K × FImmutableTree K T) → Bool
  | [] => false
  | (_, subtree) :: cs => subtree.containsValueMatching predicate || childContains predicate cs

end

mutual

/-- The values with their paths, those of the children first. -/
def forEach : FImmutableTree K T → List (List K × T)
  | node v cs => childrenForEach cs ++ (v.map fun v => ([], v)).toList

def childrenForEach : List (K × FImmutableTree K T) → List (List K × T)
  | [] => []
  | (childKey, childTree) :: cs =>
    (childTree.forEach.map fun e => (childKey :: e.1, e.2)) ++ childrenForEach cs

end

/-- The children are in order, with keys that are among the names. -/
inductive Ordered (names : Set K) : FImmutableTree K T → Prop
  | of (v : Option T) {cs : List (K × FImmutableTree K T)} (sorted : Sorted cmp cs)
      (named : ∀ e ∈ cs, e.1 ∈ names) (ordered : ∀ e ∈ cs, Ordered names e.2) :
      Ordered names (node v cs)

variable {cmp} {t new : FImmutableTree K T} {v : Option T} {cs : List (K × FImmutableTree K T)}
variable {p q r : List K} {predicate : T → Bool}

lemma valueAtPath_nil (t : FImmutableTree K T) : t.valueAtPath cmp [] = t.value := by
  cases t
  rfl

lemma valueAtPath_cons (v : Option T) (cs : List (K × FImmutableTree K T)) (k : K) (p : List K) :
    (node v cs).valueAtPath cmp (k :: p) =
      (find cmp k cs).bind fun child => child.valueAtPath cmp p := by
  rw [valueAtPath]
  cases find cmp k cs <;> rfl

lemma valueAtPath_empty (p : List K) : (empty : FImmutableTree K T).valueAtPath cmp p = none := by
  cases p <;> rfl

/-- The value under a child, also where there is none. -/
lemma valueAtPath_getD (k : K) (p : List K) :
    ((find cmp k cs).getD empty).valueAtPath cmp p = (node v cs).valueAtPath cmp (k :: p) := by
  rw [valueAtPath_cons]
  cases find cmp k cs with
  | none => exact valueAtPath_empty p
  | some child => rfl

lemma valueAtPath_subtreeAtPath (t : FImmutableTree K T) (p q : List K) :
    (t.subtreeAtPath cmp p).valueAtPath cmp q = t.valueAtPath cmp (p ++ q) := by
  induction p generalizing t with
  | nil =>
    cases t
    rfl
  | cons k p ih =>
    obtain ⟨v, cs⟩ := t
    rw [List.cons_append, valueAtPath_cons, subtreeAtPath]
    cases find cmp k cs with
    | none => exact valueAtPath_empty q
    | some child => exact ih child

lemma isSome_rootMostValueOnPath (t : FImmutableTree K T) (p : List K) :
    (t.rootMostValueOnPath cmp predicate p).isSome ↔
      ∃ q, q <+: p ∧ (t.valueAtPath cmp q).any predicate := by
  induction p generalizing t with
  | nil =>
    obtain ⟨v, cs⟩ := t
    rw [rootMostValueOnPath, Option.isSome_filter]
    constructor
    · exact fun h => ⟨[], List.nil_prefix, h⟩
    · rintro ⟨q, hq, h⟩
      rw [List.prefix_nil.mp hq] at h
      exact h
  | cons k p ih =>
    obtain ⟨v, cs⟩ := t
    rw [rootMostValueOnPath]
    have hroot := Option.isSome_filter (p := predicate) (o := v)
    cases hv : v.filter predicate with
    | some w =>
      rw [hv] at hroot
      exact ⟨fun _ => ⟨[], List.nil_prefix, hroot.symm⟩, fun _ => rfl⟩
    | none =>
      rw [hv] at hroot
      have hchild : (∃ q, q <+: k :: p ∧ ((node v cs).valueAtPath cmp q).any predicate) ↔
          ∃ q, q <+: p ∧ ((node v cs).valueAtPath cmp (k :: q)).any predicate := by
        constructor
        · rintro ⟨q, hq, h⟩
          cases q with
          | nil =>
            have h' : v.any predicate = true := h
            rw [← hroot] at h'
            cases h'
          | cons k' q =>
            obtain ⟨rfl, hq'⟩ := List.cons_prefix_cons.mp hq
            exact ⟨q, hq', h⟩
        · rintro ⟨q, hq, h⟩
          exact ⟨k :: q, (List.prefix_cons_inj k).mpr hq, h⟩
      rw [hchild]
      cases hfind : find cmp k cs with
      | none => simp [valueAtPath_cons, hfind]
      | some child => simpa [valueAtPath_cons, hfind] using ih child

lemma findRootMostMatchingPath_eq (t : FImmutableTree K T) (p : List K) :
    (t.findRootMostMatchingPath cmp predicate p).map Prod.snd =
      t.rootMostValueOnPath cmp predicate p := by
  induction p generalizing t with
  | nil =>
    cases t
    simp [findRootMostMatchingPath, rootMostValueOnPath, Function.comp_def]
  | cons k p ih =>
    obtain ⟨v, cs⟩ := t
    rw [findRootMostMatchingPath, rootMostValueOnPath]
    cases v.filter predicate with
    | some w => rfl
    | none =>
      cases find cmp k cs with
      | none => rfl
      | some child =>
        dsimp only
        rw [Option.map_map, ← ih child]
        rfl

lemma leafMostLoop_of_none (c : Option T) (h : ∀ q ≠ [], t.valueAtPath cmp q = none)
    (p : List K) : leafMostLoop cmp c t p = c := by
  induction p generalizing t with
  | nil => cases t; rfl
  | cons k p ih =>
    obtain ⟨v, cs⟩ := t
    rw [leafMostLoop]
    cases hfind : find cmp k cs with
    | none => rfl
    | some child =>
      have hchild : ∀ q, child.valueAtPath cmp q = none := by
        intro q
        have hq := h (k :: q) (by simp)
        rw [valueAtPath_cons, hfind] at hq
        exact hq
      have hvalue : child.value = none := (valueAtPath_nil child).symm.trans (hchild [])
      dsimp only
      rw [hvalue, Option.none_or]
      exact ih fun q _ => hchild q

/-- **The mark nearest above a path** decides. -/
lemma leafMostValueOnPath_of_bare {w : T} (h : t.valueAtPath cmp p = some w)
    (hbare : ∀ s ≠ [], t.valueAtPath cmp (p ++ s) = none) (r : List K) :
    t.leafMostValueOnPath cmp (p ++ r) = some w := by
  have hloop : ∀ (t : FImmutableTree K T) (c : Option T), (p = [] → c = some w) →
      t.valueAtPath cmp p = some w → (∀ s ≠ [], t.valueAtPath cmp (p ++ s) = none) →
        leafMostLoop cmp c t (p ++ r) = some w := by
    clear h hbare
    induction p with
    | nil =>
      intro t c hc _ hbare
      rw [leafMostLoop_of_none c hbare, hc rfl]
    | cons k p ih =>
      intro t c _ h hbare
      obtain ⟨v, cs⟩ := t
      rw [List.cons_append, leafMostLoop]
      cases hfind : find cmp k cs with
      | none =>
        rw [valueAtPath_cons, hfind] at h
        cases h
      | some child =>
        rw [valueAtPath_cons, hfind, Option.bind_some] at h
        refine ih child _ (fun hp => ?_) h fun s hs => ?_
        · rw [hp, valueAtPath_nil] at h
          rw [h, Option.some_or]
        · have hs' := hbare s hs
          rw [List.cons_append, valueAtPath_cons, hfind] at hs'
          exact hs'
  refine hloop t t.value (fun hp => ?_) h hbare
  rw [hp, valueAtPath_nil] at h
  exact h

/-! ### Trees in order -/

section order

variable {names : Set K}

lemma Ordered.find (ht : Ordered cmp names (node v cs)) {k : K} {child : FImmutableTree K T}
    (h : find cmp k cs = some child) : Ordered cmp names child := by
  obtain ⟨k', -, hmem⟩ := mem_of_find h
  cases ht with
  | of _ _ _ ho => exact ho (k', child) hmem

lemma ordered_empty : Ordered cmp names (empty : FImmutableTree K T) :=
  .of none sorted_nil (by simp) (by simp)

lemma Ordered.subtreeAtPath (ht : Ordered cmp names t) (p : List K) :
    Ordered cmp names (t.subtreeAtPath cmp p) := by
  induction p generalizing t with
  | nil =>
    cases t
    exact ht
  | cons k p ih =>
    obtain ⟨v, cs⟩ := t
    rw [FImmutableTree.subtreeAtPath]
    cases hfind : SortedList.find cmp k cs with
    | none => exact ordered_empty
    | some child => exact ih (ht.find hfind)

/-- The paths below the children begin with their keys. -/
lemma mem_childrenForEach {w : T} :
    (q, w) ∈ childrenForEach cs ↔ ∃ e ∈ cs, ∃ r, q = e.1 :: r ∧ (r, w) ∈ e.2.forEach := by
  induction cs with
  | nil => simp [childrenForEach]
  | cons e cs ih =>
    obtain ⟨k, child⟩ := e
    rw [childrenForEach, List.mem_append, ih]
    simp only [List.mem_map, Prod.exists, Prod.mk.injEq, List.mem_cons, exists_eq_or_imp]
    refine or_congr ?_ Iff.rfl
    constructor
    · rintro ⟨r, u, hmem, rfl, rfl⟩
      exact ⟨r, rfl, hmem⟩
    · rintro ⟨r, rfl, hmem⟩
      exact ⟨r, w, hmem, rfl, rfl⟩

lemma mem_paths_childrenForEach (h : q ∈ (childrenForEach cs).map Prod.fst) :
    ∃ e ∈ cs, ∃ r, q = e.1 :: r := by
  obtain ⟨⟨_, w⟩, hmem, rfl⟩ := List.mem_map.mp h
  obtain ⟨e, he, r, hr, -⟩ := mem_childrenForEach.mp hmem
  exact ⟨e, he, r, hr⟩

variable [Std.TransCmp cmp]

/-- **All values are gone through**, each with a path that ties with the one it is found at. -/
lemma mem_forEach (ht : Ordered cmp names t) (p : List K) (w : T) :
    (∃ q, Tied cmp p q ∧ (q, w) ∈ t.forEach) ↔ t.valueAtPath cmp p = some w := by
  induction ht generalizing p with
  | @of v cs hs _ _ ih =>
    simp only [forEach, List.mem_append, mem_childrenForEach]
    cases p with
    | nil =>
      rw [valueAtPath]
      constructor
      · rintro ⟨q, hq, ⟨e, -, r, rfl, -⟩ | hv⟩
        · simp at hq
        · cases v <;> simp_all
      · rintro rfl
        exact ⟨[], List.Forall₂.nil, .inr (by simp)⟩
    | cons k p =>
      rw [valueAtPath_cons, Option.bind_eq_some_iff]
      constructor
      · rintro ⟨q, hq, ⟨e, he, r, rfl, hmem⟩ | hv⟩
        · obtain ⟨hk, hr⟩ := tied_cons.mp hq
          exact ⟨e.2, (find_eq_some_iff_tie hs).mpr ⟨e.1, hk, he⟩, (ih e he p).mp ⟨r, hr, hmem⟩⟩
        · cases v <;> simp_all
      · rintro ⟨child, hfind, hvalue⟩
        obtain ⟨k', hk, he⟩ := (find_eq_some_iff_tie hs).mp hfind
        obtain ⟨r, hr, hmem⟩ := (ih (k', child) he p).mpr hvalue
        exact ⟨k' :: r, tied_cons.mpr ⟨hk, hr⟩, .inl ⟨(k', child), he, r, rfl, hmem⟩⟩

omit [Std.TransCmp cmp] in
/-- No two of the paths that are gone through tie. -/
lemma pairwise_forEach (ht : Ordered cmp names t) :
    (t.forEach.map Prod.fst).Pairwise fun p q => ¬ Tied cmp p q := by
  induction ht with
  | @of v cs hs hn ho ih =>
    have hchildren : ((childrenForEach cs).map Prod.fst).Pairwise fun p q => ¬ Tied cmp p q := by
      induction cs with
      | nil => simp [childrenForEach]
      | cons e cs ihc =>
        obtain ⟨k, child⟩ := e
        obtain ⟨hk, hcs⟩ := sorted_cons.mp hs
        have hrest := ihc hcs (fun e he => hn e (by simp [he])) (fun e he => ho e (by simp [he]))
          fun e he => ih e (by simp [he])
        have hchild : ((child.forEach.map Prod.fst).map (k :: ·)).Pairwise fun p q =>
            ¬ Tied cmp p q :=
          List.pairwise_map.mpr ((ih (k, child) (by simp)).imp fun hnot htied =>
            hnot (tied_cons.mp htied).2)
        rw [childrenForEach, List.map_append, List.map_map, List.pairwise_append]
        rw [List.map_map] at hchild
        refine ⟨hchild, hrest, fun p hp q hq htied => ?_⟩
        obtain ⟨e, -, rfl⟩ := List.mem_map.mp hp
        obtain ⟨e', he', r, rfl⟩ := mem_paths_childrenForEach hq
        have hlt := hk e' he'
        have hkey : cmp k e'.1 = .eq := (tied_cons.mp htied).1
        rw [hkey] at hlt
        cases hlt
    rw [forEach, List.map_append, List.pairwise_append]
    refine ⟨hchildren, by cases v <;> simp, fun p hp q hq htied => ?_⟩
    obtain ⟨e, -, r, rfl⟩ := mem_paths_childrenForEach hp
    cases v with
    | none => simp at hq
    | some w =>
      simp only [Option.map_some, Option.toList_some, List.map_cons, List.map_nil,
        List.mem_singleton] at hq
      rw [hq, tied_nil_right] at htied
      cases htied

lemma Ordered.setValue (ht : Ordered cmp names t) (new : Option T) {p : List K}
    (hp : ∀ k ∈ p, k ∈ names) : Ordered cmp names (t.setValue cmp new p) := by
  induction p generalizing t with
  | nil =>
    obtain ⟨v, cs⟩ := t
    cases ht with
    | of _ hs hn ho => exact .of new hs hn ho
  | cons k p ih =>
    obtain ⟨v, cs⟩ := t
    obtain ⟨hk, hp⟩ := List.forall_mem_cons.mp hp
    have hchild : Ordered cmp names ((SortedList.find cmp k cs).getD empty) := by
      cases hfind : SortedList.find cmp k cs with
      | none => exact ordered_empty
      | some child => exact ht.find hfind
    cases ht with
    | of _ hs hn ho =>
      refine .of v (sorted_insert hs k _) (fun e he => ?_) fun e he => ?_
      · rcases mem_insert he with rfl | he
        · exact hk
        · exact hn e he
      · rcases mem_insert he with rfl | he
        · exact ih hchild hp
        · exact ho e he

/-- Paths that tie have one value. -/
lemma valueAtPath_congr (t : FImmutableTree K T) (h : Tied cmp q p) :
    t.valueAtPath cmp q = t.valueAtPath cmp p := by
  induction h generalizing t with
  | nil => rfl
  | cons hk _ ih =>
    obtain ⟨v, cs⟩ := t
    rw [valueAtPath_cons, valueAtPath_cons, find_congr hk]
    exact Option.bind_congr fun child _ => ih child

lemma valueAtPath_setValue (t : FImmutableTree K T) (new : Option T) (p q : List K) :
    (t.setValue cmp new p).valueAtPath cmp q =
      if Tied cmp q p then new else t.valueAtPath cmp q := by
  induction p generalizing t q with
  | nil =>
    obtain ⟨v, cs⟩ := t
    cases q <;> simp [setValue, valueAtPath]
  | cons k p ih =>
    obtain ⟨v, cs⟩ := t
    cases q with
    | nil => simp [setValue, valueAtPath]
    | cons k' q =>
      rw [setValue, valueAtPath_cons, find_insert_tie]
      by_cases hk : cmp k' k = .eq
      · rw [if_pos hk, Option.bind_some, ih, valueAtPath_getD (v := v), valueAtPath_cons,
          valueAtPath_cons, find_congr hk]
        simp [hk]
      · rw [if_neg hk, if_neg (by simp [hk]), valueAtPath_cons]

/-- A tree with values in place of what was at a path. -/
lemma valueAtPath_setTree (hnew : new.isEmpty = false) (t : FImmutableTree K T) (p q : List K) :
    (t.setTree cmp new p).valueAtPath cmp q =
      if TiedPrefix cmp p q then new.valueAtPath cmp (q.drop p.length)
      else t.valueAtPath cmp q := by
  induction p generalizing t q with
  | nil =>
    cases t
    simp [setTree]
  | cons k p ih =>
    obtain ⟨v, cs⟩ := t
    have hchild : (((find cmp k cs).getD empty).setTree cmp new p).isEmpty = false :=
      isEmpty_setTree hnew p _
    simp only [setTree, hchild, Bool.false_eq_true, if_false]
    cases q with
    | nil => simp [valueAtPath]
    | cons k' q =>
      rw [valueAtPath_cons, find_insert_tie]
      by_cases hk : cmp k' k = .eq
      · rw [if_pos hk, Option.bind_some, ih, valueAtPath_getD (v := v), valueAtPath_cons,
          valueAtPath_cons, find_congr hk]
        simp [hk]
      · rw [if_neg hk, if_neg (by simp [hk]), valueAtPath_cons]

end order

end FImmutableTree

/-- Marks at paths: to prune is true, and to keep is false. -/
structure FPruneForest (K : Type) where
  pruneForest : FImmutableTree K Bool

namespace FPruneForest

open FImmutableTree

variable {K : Type} (cmp : K → K → Ordering)

def pruneTree : FImmutableTree K Bool := .node (some true) []

def keepTree : FImmutableTree K Bool := .node (some false) []

def empty : FPruneForest K := ⟨FImmutableTree.empty⟩

def prunesAnything (t : FPruneForest K) : Bool := t.pruneForest.containsValueMatching id

def shouldPruneUnkeptDescendantsAtPath (t : FPruneForest K) (path : List K) : Bool :=
  (t.pruneForest.leafMostValueOnPath cmp path).getD false

/-- None where a path was kept that is to be pruned now. -/
def prunePath (t : FPruneForest K) (path : List K) : Option (FPruneForest K) :=
  if (t.pruneForest.rootMostValueOnPath cmp (!·) path).isSome then none
  else if (t.pruneForest.rootMostValueOnPath cmp id path).isSome then some t
  else some ⟨t.pruneForest.setTree cmp pruneTree path⟩

def keepPath (t : FPruneForest K) (path : List K) : FPruneForest K :=
  if (t.pruneForest.rootMostValueOnPath cmp (!·) path).isSome then t
  else ⟨t.pruneForest.setTree cmp keepTree path⟩

/-- The mark at a path. -/
def mark (t : FPruneForest K) (path : List K) : Option Bool := t.pruneForest.valueAtPath cmp path

/-- Nothing is kept yet. -/
def Unkept (t : FPruneForest K) : Prop := ∀ p, t.mark cmp p ≠ some false

/-- There are no marks below a path that is kept. -/
def Bare (t : FPruneForest K) : Prop :=
  ∀ p s, t.mark cmp p = some false → s ≠ [] → t.mark cmp (p ++ s) = none

/-- A path is kept with all above some path. -/
def Keeps (t : FPruneForest K) (p : List K) : Prop := ∃ q, q <+: p ∧ t.mark cmp q = some false

variable {cmp} {t t' : FPruneForest K} {p q r : List K}

lemma isSome_iff_keeps : (t.pruneForest.rootMostValueOnPath cmp (!·) p).isSome ↔ t.Keeps cmp p := by
  rw [isSome_rootMostValueOnPath]
  refine exists_congr fun q => and_congr_right fun _ => ?_
  rw [mark]
  cases t.pruneForest.valueAtPath cmp q with
  | none => simp
  | some b => cases b <;> simp

/-- **What is kept is not pruned**. -/
lemma shouldPrune_of_keeps (ht : t.Bare cmp) (hp : t.Keeps cmp p) (hq : p <+: q) :
    t.shouldPruneUnkeptDescendantsAtPath cmp q = false := by
  obtain ⟨k, hk, hmark⟩ := hp
  obtain ⟨r, rfl⟩ := hk.trans hq
  rw [shouldPruneUnkeptDescendantsAtPath, leafMostValueOnPath_of_bare hmark fun s => ht k s hmark]
  rfl

lemma unkept_empty : (FPruneForest.empty : FPruneForest K).Unkept cmp := by
  intro p h
  rw [mark, FPruneForest.empty, valueAtPath_empty] at h
  cases h

lemma Unkept.bare (ht : t.Unkept cmp) : t.Bare cmp := fun p _ hp => absurd hp (ht p)

section marks

variable [Std.TransCmp cmp]

lemma mark_setTree (t : FPruneForest K) (b : Bool) (p q : List K) :
    (⟨t.pruneForest.setTree cmp (.node (some b) []) p⟩ : FPruneForest K).mark cmp q =
      if TiedPrefix cmp p q then (if q.length ≤ p.length then some b else none)
      else t.mark cmp q := by
  rw [mark, valueAtPath_setTree rfl]
  split
  · split
    · rename_i hle
      rw [List.drop_eq_nil_of_le hle, valueAtPath]
    · rename_i hlt
      obtain ⟨k, s, hdrop⟩ := List.exists_cons_of_ne_nil (mt List.drop_eq_nil_iff.mp hlt)
      rw [hdrop, valueAtPath_cons, SortedList.find, Option.bind_none]
  · rfl

/-- **What is pruned first** can be pruned. -/
lemma exists_prunePath (ht : t.Unkept cmp) (p : List K) :
    ∃ t', t.prunePath cmp p = some t' ∧ t'.Unkept cmp := by
  have hnone : ¬ (t.pruneForest.rootMostValueOnPath cmp (!·) p).isSome := by
    rw [isSome_iff_keeps]
    rintro ⟨q, -, hq⟩
    exact ht q hq
  rw [prunePath, if_neg hnone]
  split
  · exact ⟨t, rfl, ht⟩
  · refine ⟨_, rfl, fun q => ?_⟩
    rw [pruneTree, mark_setTree]
    split
    · split <;> simp
    · exact ht q

/-- A path that was not kept yet has the marks below it taken away. -/
lemma Bare.keepPath (ht : t.Bare cmp) (p : List K) : (t.keepPath cmp p).Bare cmp := by
  rw [FPruneForest.keepPath]
  split
  · exact ht
  · rename_i hnot
    rw [isSome_iff_keeps] at hnot
    intro q s hq hs
    rw [keepTree, mark_setTree] at hq ⊢
    by_cases hpq : TiedPrefix cmp p q
    · have hlong : ¬ (q ++ s).length ≤ p.length := by
        have hlen := hpq.length_eq
        have hpos := List.length_pos_of_ne_nil hs
        rw [List.length_take] at hlen
        rw [List.length_append]
        omega
      rw [if_pos (hpq.append s), if_neg hlong]
    · rw [if_neg hpq] at hq
      have hpqs : ¬ TiedPrefix cmp p (q ++ s) := by
        intro h
        rcases h.of_append with h | ⟨r, hr, htied⟩
        · exact hpq h
        · exact hnot ⟨r, hr, (valueAtPath_congr _ htied).symm.trans hq⟩
      rw [if_neg hpqs]
      exact ht q s hq hs

lemma keeps_keepPath (t : FPruneForest K) (p : List K) : (t.keepPath cmp p).Keeps cmp p := by
  rw [keepPath]
  split
  · rename_i h
    exact isSome_iff_keeps.mp h
  · refine ⟨p, List.prefix_refl p, ?_⟩
    rw [keepTree, mark_setTree, if_pos (tiedPrefix_of_begins (List.prefix_refl p)),
      if_pos le_rfl]

/-- What is kept stays so. -/
lemma Keeps.keepPath (h : t.Keeps cmp q) (p : List K) : (t.keepPath cmp p).Keeps cmp q := by
  rw [FPruneForest.keepPath]
  split
  · exact h
  · obtain ⟨k, hk, hmark⟩ := h
    by_cases hpk : TiedPrefix cmp p k
    · have hself : TiedPrefix cmp p (k.take p.length) := by
        rwa [TiedPrefix, List.take_take, Nat.min_self]
      refine ⟨k.take p.length, (List.take_prefix _ k).trans hk, ?_⟩
      rw [keepTree, mark_setTree, if_pos hself, if_pos (List.length_take_le _ k)]
    · refine ⟨k, hk, ?_⟩
      rw [keepTree, mark_setTree, if_neg hpk]
      exact hmark

lemma keeps_foldl (ht : t.Bare cmp) (ps : List (List K)) :
    (ps.foldl (FPruneForest.keepPath cmp) t).Bare cmp ∧
      ∀ p, (t.Keeps cmp p ∨ p ∈ ps) → (ps.foldl (FPruneForest.keepPath cmp) t).Keeps cmp p := by
  induction ps generalizing t with
  | nil => exact ⟨ht, fun p hp => hp.resolve_right (by simp)⟩
  | cons q ps ih =>
    obtain ⟨hbare, hkeeps⟩ := ih (ht.keepPath q)
    refine ⟨hbare, fun p hp => hkeeps p ?_⟩
    rcases hp with hp | hp
    · exact .inl (hp.keepPath q)
    · rcases List.mem_cons.mp hp with rfl | hp
      · exact .inl (keeps_keepPath t p)
      · exact .inr hp

lemma exists_foldlM_prunePath (ht : t.Unkept cmp) (ps : List (List K)) :
    ∃ t', ps.foldlM (prunePath cmp) t = some t' ∧ t'.Unkept cmp := by
  induction ps generalizing t with
  | nil => exact ⟨t, rfl, ht⟩
  | cons p ps ih =>
    obtain ⟨t', hprune, ht'⟩ := exists_prunePath ht p
    rw [List.foldlM_cons, hprune]
    exact ih ht'

end marks

end FPruneForest

end Solta
