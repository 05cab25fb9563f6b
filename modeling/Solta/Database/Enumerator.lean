import Solta.Database.SortedDictionary

/-!
The enumerators of the sorted dictionaries.

The enumerator of a tree keeps a stack of the nodes whose keys are still to come, each with what
lies beyond it; that of an array keeps a position. An enumerator is asked for one key after
the other, and answers `nil` at the end.
-/

namespace Solta

open Lib SortedList

variable {K V : Type} {cmp : K → K → Ordering}

/-- What is left of an enumeration. The top of the stack is its head; a position may be `-1`. -/
inductive KeyEnumerator (K V : Type)
  | tree (stack : List (FLLRBNode K V)) (isReverse : Bool)
  | array (keys : List K) (pos : ℤ) (reverse : Bool)

namespace FTreeSortedDictionaryEnumerator

open FLLRBNode

/-- A key against the start key, which all keys are after when there is none; the comparison
is flipped going in reverse. -/
def order (cmp : K → K → Ordering) (startKey : Option K) (isReverse : Bool) (key : K) : Ordering :=
  let order := match startKey with
    | some startKey => cmp key startKey
    | none => .gt
  if isReverse then order.swap else order

/-- The loop of the initializer. -/
def initial (cmp : K → K → Ordering) (startKey : Option K) (isReverse : Bool) :
    FLLRBNode K V → List (FLLRBNode K V) → List (FLLRBNode K V)
  | empty, stack => stack
  | value key val color left right, stack =>
    match order cmp startKey isReverse key with
    | .lt =>
      if isReverse then initial cmp startKey isReverse left stack
      else initial cmp startKey isReverse right stack
    | .eq => value key val color left right :: stack
    | .gt =>
      if isReverse then
        initial cmp startKey isReverse right (value key val color left right :: stack)
      else initial cmp startKey isReverse left (value key val color left right :: stack)

/-- The loop of `nextObject`. -/
def descend (isReverse : Bool) : FLLRBNode K V → List (FLLRBNode K V) → List (FLLRBNode K V)
  | empty, stack => stack
  | value key val color left right, stack =>
    if isReverse then descend isReverse right (value key val color left right :: stack)
    else descend isReverse left (value key val color left right :: stack)

end FTreeSortedDictionaryEnumerator

namespace KeyEnumerator

open FLLRBNode

/-- `nextObject`; an empty node is never on the stack. -/
def nextObject : KeyEnumerator K V → Option K × KeyEnumerator K V
  | tree [] isReverse => (none, tree [] isReverse)
  | tree (empty :: stack) isReverse => (none, tree stack isReverse)
  | tree (value key _ _ left right :: stack) isReverse =>
    let node := if isReverse then left else right
    (some key, tree (FTreeSortedDictionaryEnumerator.descend isReverse node stack) isReverse)
  | array keys pos reverse =>
    if 0 ≤ pos ∧ pos < keys.length then
      (keys[pos.toNat]?, array keys (if reverse then pos - 1 else pos + 1) reverse)
    else (none, array keys pos reverse)

/-- What the first calls of `nextObject` answer. -/
def nextObjects : ℕ → KeyEnumerator K V → List (Option K)
  | 0, _ => []
  | n + 1, e => e.nextObject.1 :: nextObjects n e.nextObject.2

end KeyEnumerator

namespace FImmutableSortedDictionary

open FTreeSortedDictionaryEnumerator FArraySortedDictionary

def keyEnumerator : FImmutableSortedDictionary K V cmp → KeyEnumerator K V
  | array d => .array (d.entries.map Prod.fst) 0 false
  | tree d => .tree (initial cmp none false d.root []) false

def keyEnumeratorFrom (startKey : K) : FImmutableSortedDictionary K V cmp → KeyEnumerator K V
  | array d =>
    .array (d.entries.map Prod.fst) (findInsertPositionForKey cmp startKey d.entries) false
  | tree d => .tree (initial cmp (some startKey) false d.root []) false

def reverseKeyEnumerator : FImmutableSortedDictionary K V cmp → KeyEnumerator K V
  | array d => .array (d.entries.map Prod.fst) (d.entries.length - 1) true
  | tree d => .tree (initial cmp none true d.root []) true

/-- The position found is behind the key before the start key, unless it is the start key's. -/
def reverseKeyEnumeratorFrom (startKey : K) :
    FImmutableSortedDictionary K V cmp → KeyEnumerator K V
  | array d =>
    let startPos := findInsertPositionForKey cmp startKey d.entries
    let found := d.entries[startPos]?.any fun e => cmp e.1 startKey = .eq
    .array (d.entries.map Prod.fst) (if found then startPos else startPos - 1) true
  | tree d => .tree (initial cmp (some startKey) true d.root []) true

end FImmutableSortedDictionary

/-! ### What is still to come -/

namespace KeyEnumerator

open FLLRBNode FTreeSortedDictionaryEnumerator

/-- The keys of a tree in the direction of the enumeration. -/
def traversal (isReverse : Bool) (n : FLLRBNode K V) : List K :=
  (if isReverse then n.reverseTraversal else n.inorderTraversal).map Prod.fst

/-- The key of a node on the stack, and what lies beyond it. -/
def beyond (isReverse : Bool) : FLLRBNode K V → List K
  | empty => []
  | value key _ _ left right => key :: traversal isReverse (if isReverse then left else right)

/-- The keys still to come. -/
def rest : KeyEnumerator K V → List K
  | tree stack isReverse => stack.flatMap (beyond isReverse)
  | array keys pos reverse =>
    if reverse then (keys.take (pos + 1).toNat).reverse else keys.drop pos.toNat

/-- The stack holds nodes, and the position is at most one off the array. -/
def Good : KeyEnumerator K V → Prop
  | tree stack _ => ∀ n ∈ stack, n.isEmpty = false
  | array keys pos reverse => if reverse then -1 ≤ pos ∧ pos < keys.length else 0 ≤ pos

lemma rest_descend (isReverse : Bool) (n : FLLRBNode K V) (stack : List (FLLRBNode K V)) :
    (descend isReverse n stack).flatMap (beyond isReverse) =
      traversal isReverse n ++ stack.flatMap (beyond isReverse) := by
  induction n generalizing stack with
  | empty => cases isReverse <;> rfl
  | value k v c l r ihl ihr =>
    cases isReverse
    · rw [descend, if_neg (by simp), ihl]
      simp [beyond, traversal, inorderTraversal]
    · rw [descend, if_pos rfl, ihr]
      simp [beyond, traversal, reverseTraversal]

lemma forall_descend {isReverse : Bool} {n : FLLRBNode K V} {stack : List (FLLRBNode K V)}
    (h : ∀ m ∈ stack, m.isEmpty = false) : ∀ m ∈ descend isReverse n stack, m.isEmpty = false := by
  induction n generalizing stack with
  | empty => exact h
  | value k v c l r ihl ihr =>
    have hcons : ∀ m ∈ value k v c l r :: stack, m.isEmpty = false := by
      simpa using h
    rw [descend]
    split
    · exact ihr hcons
    · exact ihl hcons

lemma nextObject_array {keys : List K} {pos : ℤ} {reverse : Bool}
    (he : Good (array keys pos reverse : KeyEnumerator K V)) :
    Good (array keys pos reverse : KeyEnumerator K V).nextObject.2 ∧
      (array keys pos reverse : KeyEnumerator K V).nextObject.1 =
        (array keys pos reverse : KeyEnumerator K V).rest.head? ∧
      (array keys pos reverse : KeyEnumerator K V).nextObject.2.rest =
        (array keys pos reverse : KeyEnumerator K V).rest.tail := by
  rw [nextObject]
  split
  · rename_i hpos
    obtain ⟨hpos, hlt⟩ := hpos
    obtain ⟨i, rfl⟩ := Int.eq_ofNat_of_zero_le hpos
    have hi : i < keys.length := by omega
    cases reverse
    · simp only [Good, rest, Bool.false_eq_true, if_false]
      refine ⟨by omega, ?_, ?_⟩
      · rw [List.head?_drop]
      · rw [List.tail_drop]
        rfl
    · have hrev : (keys.take (i + 1)).reverse = keys[i] :: (keys.take i).reverse := by
        rw [List.take_add_one, List.getElem?_eq_getElem hi, Option.toList_some,
          List.reverse_concat]
      have hnat : ((i : ℤ) + 1).toNat = i + 1 := by omega
      have hback : ((i : ℤ) - 1 + 1).toNat = i := by omega
      simp only [Good, rest, if_true, hnat, hback, hrev]
      exact ⟨by omega, by simp [hi], rfl⟩
  · rename_i hpos
    cases reverse
    · simp only [Good, Bool.false_eq_true, if_false] at he
      have hnil : keys.drop pos.toNat = [] := List.drop_eq_nil_of_le (by omega)
      simp only [Good, rest, Bool.false_eq_true, if_false, hnil]
      exact ⟨he, rfl, rfl⟩
    · simp only [Good, if_true] at he
      obtain rfl : pos = -1 := by omega
      simp only [Good, rest, if_true]
      exact ⟨he, rfl, rfl⟩

/-- **One call** answers the next of the keys that are still to come. -/
lemma nextObject_spec {e : KeyEnumerator K V} (he : Good e) :
    Good e.nextObject.2 ∧ e.nextObject.1 = e.rest.head? ∧ e.nextObject.2.rest = e.rest.tail := by
  cases e with
  | array keys pos reverse => exact nextObject_array he
  | tree stack isReverse =>
    rcases stack with _ | ⟨_ | ⟨k, v, c, l, r⟩, stack⟩
    · exact ⟨he, rfl, rfl⟩
    · exact absurd (he empty (by simp)) (by simp)
    · refine ⟨forall_descend fun m hm => he m (by simp [hm]), ?_, ?_⟩
      · simp [nextObject, rest, beyond]
      · simp only [nextObject, rest, rest_descend]
        simp [beyond]

/-- **All calls** answer the keys to come one after the other, and `nil` from then on. -/
lemma nextObjects_eq {e : KeyEnumerator K V} (he : Good e) (n : ℕ) :
    e.nextObjects n = (List.range n).map fun i => e.rest[i]? := by
  induction n generalizing e with
  | zero => rfl
  | succ n ih =>
    obtain ⟨hgood, hhead, htail⟩ := nextObject_spec he
    rw [nextObjects, ih hgood, hhead, htail, List.range_succ_eq_map]
    simp [List.head?_eq_getElem?]

end KeyEnumerator

/-! ### What the enumerators start with -/

namespace FImmutableSortedDictionary

open FLLRBNode FTreeSortedDictionaryEnumerator FArraySortedDictionary KeyEnumerator

variable [Std.TransCmp cmp]

/-- A key that is not passed over has only later keys beyond it. -/
lemma order_beyond {startKey : Option K} {isReverse : Bool} {k k' : K}
    (h : order cmp startKey isReverse k ≠ .lt)
    (hlt : (if isReverse then cmp k' k else cmp k k') = .lt) :
    order cmp startKey isReverse k' = .gt := by
  unfold order at h ⊢
  cases startKey with
  | none =>
    cases isReverse
    · rfl
    · exact absurd rfl h
  | some s =>
    cases isReverse
    · simp only [Bool.false_eq_true, if_false] at h hlt ⊢
      rw [Std.OrientedCmp.gt_iff_lt]
      refine Std.TransCmp.lt_of_isLE_of_lt ?_ hlt
      rwa [← Std.OrientedCmp.isGE_iff_isLE, ← Ordering.ne_lt_iff_isGE]
    · simp only [if_true] at h hlt ⊢
      rw [Ordering.swap_eq_gt]
      refine Std.TransCmp.lt_of_lt_of_isLE hlt (Ordering.ne_gt_iff_isLE.mp fun hgt => h ?_)
      rw [hgt, Ordering.swap_gt]

lemma filter_beyond {startKey : Option K} {isReverse : Bool} {near far : List K} {k : K}
    (h : (near ++ k :: far).Pairwise fun a b => (if isReverse then cmp b a else cmp a b) = .lt) :
    (near ++ k :: far).filter (fun k => order cmp startKey isReverse k ≠ .lt) =
      match order cmp startKey isReverse k with
      | .lt => far.filter fun k => order cmp startKey isReverse k ≠ .lt
      | .eq => k :: far
      | .gt => near.filter (fun k => order cmp startKey isReverse k ≠ .lt) ++ k :: far := by
  obtain ⟨-, hk, hnear⟩ := List.pairwise_append.mp h
  obtain ⟨hfar, -⟩ := List.pairwise_cons.mp hk
  -- a key passed over has only keys passed over before it
  have hnil : order cmp startKey isReverse k ≠ .gt →
      near.filter (fun k => order cmp startKey isReverse k ≠ .lt) = [] := by
    intro hk
    refine List.filter_eq_nil_iff.mpr fun a ha hne => hk ?_
    exact order_beyond (of_decide_eq_true hne) (hnear a ha k (by simp))
  have hall : order cmp startKey isReverse k ≠ .lt →
      far.filter (fun k => order cmp startKey isReverse k ≠ .lt) = far := by
    intro hk
    refine List.filter_eq_self.mpr fun a ha => decide_eq_true ?_
    simp [order_beyond hk (hfar a ha)]
  rw [List.filter_append, List.filter_cons]
  cases horder : order cmp startKey isReverse k
  · rw [hnil (by simp [horder])]
    simp
  · rw [hnil (by simp [horder]), hall (by simp [horder])]
    simp
  · rw [hall (by simp [horder])]
    simp

omit [Std.TransCmp cmp] in
lemma pairwise_traversal (isReverse : Bool) {n : FLLRBNode K V}
    (hn : Sorted cmp n.inorderTraversal) : (traversal isReverse n).Pairwise fun a b =>
      (if isReverse then cmp b a else cmp a b) = .lt := by
  refine List.pairwise_map.mpr ?_
  cases isReverse
  · exact hn
  · rw [if_pos rfl, reverse_eq]
    exact List.pairwise_reverse.mpr hn

/-- What is found from the start key on. -/
lemma rest_initial (startKey : Option K) (isReverse : Bool) {n : FLLRBNode K V}
    (hn : Sorted cmp n.inorderTraversal) (stack : List (FLLRBNode K V)) :
    (initial cmp startKey isReverse n stack).flatMap (beyond isReverse) =
      (traversal isReverse n).filter (fun k => order cmp startKey isReverse k ≠ .lt) ++
        stack.flatMap (beyond isReverse) := by
  induction n generalizing stack with
  | empty => cases isReverse <;> rfl
  | value k v c l r ihl ihr =>
    obtain ⟨hl, hr, -⟩ := sorted_middle.mp hn
    cases isReverse
    · have hdir := pairwise_traversal false hn
      have htraversal : traversal false (value k v c l r) =
          traversal false l ++ k :: traversal false r := by
        simp [traversal, inorderTraversal]
      rw [htraversal] at hdir ⊢
      rw [filter_beyond hdir, initial]
      split
      · exact ihr hr stack
      · simp [beyond]
      · rw [if_neg (by simp), ihl hl]
        simp [beyond]
    · have hdir := pairwise_traversal true hn
      have htraversal : traversal true (value k v c l r) =
          traversal true r ++ k :: traversal true l := by
        simp [traversal, reverseTraversal]
      rw [htraversal] at hdir ⊢
      rw [filter_beyond hdir, initial]
      split
      · exact ihl hl stack
      · simp [beyond]
      · rw [if_pos rfl, ihr hr]
        simp [beyond]

omit [Std.TransCmp cmp] in
lemma forall_initial {startKey : Option K} {isReverse : Bool} {n : FLLRBNode K V}
    {stack : List (FLLRBNode K V)} (h : ∀ m ∈ stack, m.isEmpty = false) :
    ∀ m ∈ initial cmp startKey isReverse n stack, m.isEmpty = false := by
  induction n generalizing stack with
  | empty => exact h
  | value k v c l r ihl ihr =>
    have hcons : ∀ m ∈ value k v c l r :: stack, m.isEmpty = false := by
      simpa using h
    rw [initial]
    split
    · split
      · exact ihl h
      · exact ihr h
    · exact hcons
    · split
      · exact ihr hcons
      · exact ihl hcons

/-- The position found parts the entries. -/
lemma findInsertPosition_spec (startKey : K) {es : List (K × V)} (hs : Sorted cmp es) :
    (∀ e ∈ es.take (findInsertPositionForKey cmp startKey es), cmp e.1 startKey = .lt) ∧
      ∀ e ∈ es.drop (findInsertPositionForKey cmp startKey es), cmp e.1 startKey ≠ .lt := by
  induction es with
  | nil => simp
  | cons e es ih =>
    obtain ⟨he, hes⟩ := sorted_cons.mp hs
    rw [findInsertPositionForKey]
    split
    · rename_i hlt
      simpa [hlt] using ih hes
    · rename_i hnlt
      refine ⟨by simp, fun f hf hlt => ?_⟩
      rcases List.mem_cons.mp hf with rfl | hf
      · exact hnlt hlt
      · exact hnlt (Std.TransCmp.lt_trans (he f hf) hlt)

omit [Std.TransCmp cmp] in
lemma findInsertPosition_le (startKey : K) (es : List (K × V)) :
    findInsertPositionForKey cmp startKey es ≤ es.length := by
  induction es with
  | nil => exact le_rfl
  | cons e es ih =>
    rw [findInsertPositionForKey]
    split
    · exact Nat.succ_le_succ ih
    · exact Nat.zero_le _

/-- What is not smaller than the start key. -/
lemma filter_from {startKey : K} {es : List (K × V)} (hs : Sorted cmp es) :
    (es.map Prod.fst).filter (fun k => cmp k startKey ≠ .lt) =
      (es.map Prod.fst).drop (findInsertPositionForKey cmp startKey es) := by
  obtain ⟨htake, hdrop⟩ := findInsertPosition_spec startKey hs
  rw [List.filter_map, ← List.map_drop]
  congr 1
  conv_lhs => rw [← List.take_append_drop (findInsertPositionForKey cmp startKey es) es]
  rw [List.filter_append, List.filter_eq_nil_iff.mpr, List.filter_eq_self.mpr, List.nil_append]
  · exact fun e he => decide_eq_true (hdrop e he)
  · exact fun e he => by simp [htake e he]

/-- What is not larger than the start key. -/
lemma filter_to {startKey : K} {es : List (K × V)} (hs : Sorted cmp es) :
    (es.map Prod.fst).filter (fun k => cmp k startKey ≠ .gt) =
      (es.map Prod.fst).take (findInsertPositionForKey cmp startKey es +
        if es[findInsertPositionForKey cmp startKey es]?.any fun e => cmp e.1 startKey = .eq
        then 1 else 0) := by
  obtain ⟨htake, hdrop⟩ := findInsertPosition_spec startKey hs
  generalize findInsertPositionForKey cmp startKey es = p at htake hdrop ⊢
  have hsplit : es = es.take p ++ es.drop p := (List.take_append_drop p es).symm
  have hbeyond : ∀ {e : K × V} {fs : List (K × V)}, es.drop p = e :: fs →
      ∀ f ∈ fs, cmp f.1 startKey = .gt := by
    intro e fs hd f hf
    have hsd : Sorted cmp (es.drop p) := hs.sublist (List.drop_sublist p es)
    rw [hd] at hsd
    rw [Std.OrientedCmp.gt_iff_lt]
    refine Std.TransCmp.lt_of_isLE_of_lt ?_ ((sorted_cons.mp hsd).1 f hf)
    rw [← Std.OrientedCmp.isGE_iff_isLE, ← Ordering.ne_lt_iff_isGE]
    exact hdrop e (by simp [hd])
  have hhead : es[p]? = (es.drop p).head? := List.head?_drop.symm
  rw [List.filter_map, ← List.map_take]
  congr 1
  conv_lhs => rw [hsplit]
  rw [List.filter_append, List.filter_eq_self.mpr fun e he => by simp [htake e he], hhead,
    List.take_add]
  congr 1
  cases hd : es.drop p with
  | nil => simp
  | cons e fs =>
    have hfs : fs.filter (fun f => cmp f.1 startKey ≠ .gt) = [] :=
      List.filter_eq_nil_iff.mpr fun f hf => by simp [hbeyond hd f hf]
    have he := hdrop e (by simp [hd])
    cases hc : cmp e.1 startKey
    · exact absurd hc he
    · simp [hc] at hfs ⊢
      exact hfs
    · simp [hc] at hfs ⊢
      exact hfs

/-- The keys in order. -/
def keys (d : FImmutableSortedDictionary K V cmp) : List K := d.entries.map Prod.fst

lemma enumerators_array (d : FArraySortedDictionary K V cmp) (startKey : K) :
    (array d).keyEnumerator.Good ∧ (array d).keyEnumerator.rest = (array d).keys ∧
    ((array d).keyEnumeratorFrom startKey).Good ∧
    ((array d).keyEnumeratorFrom startKey).rest =
      (array d).keys.filter (fun k => cmp k startKey ≠ .lt) ∧
    ((array d).reverseKeyEnumeratorFrom startKey).Good ∧
    ((array d).reverseKeyEnumeratorFrom startKey).rest =
      ((array d).keys.filter fun k => cmp k startKey ≠ .gt).reverse ∧
    (array d).reverseKeyEnumerator.Good ∧
    (array d).reverseKeyEnumerator.rest = (array d).keys.reverse := by
  have hle : findInsertPositionForKey cmp startKey d.entries ≤ d.entries.length :=
    findInsertPosition_le startKey d.entries
  have hfound : (d.entries[findInsertPositionForKey cmp startKey d.entries]?.any
      fun e => cmp e.1 startKey = .eq) = true →
      findInsertPositionForKey cmp startKey d.entries < d.entries.length := by
    intro h
    obtain ⟨e, he, -⟩ := (Option.any_eq_true _ _).mp h
    exact (List.getElem?_eq_some_iff.mp he).1
  refine ⟨?_, ?_, ?_, ?_, ?_, ?_, ?_, ?_⟩
  · simp [keyEnumerator, Good]
  · simp [keyEnumerator, rest, keys, entries]
  · simp [keyEnumeratorFrom, Good]
  · rw [keys, entries, filter_from d.sorted]
    simp [keyEnumeratorFrom, rest]
  · simp only [reverseKeyEnumeratorFrom, Good, if_true, List.length_map]
    split
    · have hlt := hfound ‹_›
      omega
    · omega
  · rw [keys, entries, filter_to d.sorted]
    simp only [reverseKeyEnumeratorFrom, rest, if_true]
    congr 2
    split <;> omega
  · simp only [reverseKeyEnumerator, Good, if_true, List.length_map]
    omega
  · simp [reverseKeyEnumerator, rest, keys, entries]

lemma enumerators_tree (d : FTreeSortedDictionary K V cmp) (startKey : Option K)
    (isReverse : Bool) :
    (KeyEnumerator.tree (initial cmp startKey isReverse d.root []) isReverse).Good ∧
    (KeyEnumerator.tree (initial cmp startKey isReverse d.root []) isReverse).rest =
      (if isReverse then (tree d).keys.reverse else (tree d).keys).filter
        fun k => order cmp startKey isReverse k ≠ .lt := by
  refine ⟨forall_initial (by simp), ?_⟩
  rw [rest, rest_initial startKey isReverse d.sorted, List.flatMap_nil, List.append_nil]
  cases isReverse
  · rfl
  · simp [traversal, reverse_eq, keys, entries]

/-- **The enumerators** of a dictionary answer one after the other: all keys in order; the keys
from a start key on in order; the keys from a start key down in the reverse order; and in reverse
without a start key all keys of an array, but none of a tree. -/
theorem enumerators_spec (d : FImmutableSortedDictionary K V cmp) (startKey : K) (n : ℕ) :
    d.keyEnumerator.nextObjects n = ((List.range n).map fun i => d.keys[i]?) ∧
    (d.keyEnumeratorFrom startKey).nextObjects n =
      ((List.range n).map fun i => (d.keys.filter fun k => cmp k startKey ≠ .lt)[i]?) ∧
    (d.reverseKeyEnumeratorFrom startKey).nextObjects n =
      ((List.range n).map fun i => (d.keys.filter fun k => cmp k startKey ≠ .gt).reverse[i]?) ∧
    d.reverseKeyEnumerator.nextObjects n =
      match d with
      | array _ => (List.range n).map fun i => d.keys.reverse[i]?
      | tree _ => List.replicate n none := by
  cases d with
  | array d =>
    obtain ⟨h₁, hr₁, h₂, hr₂, h₃, hr₃, h₄, hr₄⟩ := enumerators_array d startKey
    refine ⟨?_, ?_, ?_, ?_⟩
    · rw [nextObjects_eq h₁, hr₁]
    · rw [nextObjects_eq h₂, hr₂]
    · rw [nextObjects_eq h₃, hr₃]
    · rw [nextObjects_eq h₄, hr₄]
  | tree d =>
    have hnone : ∀ k : K, order cmp none false k ≠ .lt := fun k => by simp [order]
    have hfrom : ∀ k, order cmp (some startKey) false k = cmp k startKey := fun k => by simp [order]
    have hto : ∀ k, order cmp (some startKey) true k ≠ .lt ↔ cmp k startKey ≠ .gt := by
      intro k
      simp [order]
    have hlast : ∀ k : K, order cmp none true k = .lt := fun k => by simp [order]
    refine ⟨?_, ?_, ?_, ?_⟩
    · obtain ⟨hgood, hrest⟩ := enumerators_tree d none false
      rw [keyEnumerator, nextObjects_eq hgood, hrest]
      simp [hnone]
    · obtain ⟨hgood, hrest⟩ := enumerators_tree d (some startKey) false
      rw [keyEnumeratorFrom, nextObjects_eq hgood, hrest]
      simp [hfrom]
    · obtain ⟨hgood, hrest⟩ := enumerators_tree d (some startKey) true
      rw [reverseKeyEnumeratorFrom, nextObjects_eq hgood, hrest]
      simp [hto, List.filter_reverse]
    · obtain ⟨hgood, hrest⟩ := enumerators_tree d none true
      rw [reverseKeyEnumerator, nextObjects_eq hgood, hrest]
      simp [hlast, List.map_const']

/-- The keys from 3 down of an array and of a tree. -/
theorem enumerators_three :
    threeKeys.map (fun d => (d.reverseKeyEnumeratorFrom 3).nextObjects 3) =
      [[some 2, some 1, none], [some 2, some 1, none]] := by
  have hdown := fun d : FImmutableSortedDictionary ℕ ℕ compare =>
    (enumerators_spec d 3 3).2.2.1
  simp only [hdown]
  decide

end FImmutableSortedDictionary

end Solta
