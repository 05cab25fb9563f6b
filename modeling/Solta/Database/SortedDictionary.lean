import Solta.Database.LlrbRemove
import Solta.Database.TreeBuilder
import Solta.Lib.Run

/-!
The sorted dictionaries of the database.

A dictionary is an array of entries, or a tree. It starts as an array, and the first new key
that finds twenty-five others makes it a tree, which it then stays. The keys and the values of
an array change at the same positions, so they are one list of entries here.
-/

namespace Solta

open Lib SortedList
open scoped List

variable {K V : Type}

/-- `SORTED_DICTIONARY_ARRAY_TO_RB_TREE_SIZE_THRESHOLD`. -/
def arrayToTreeThreshold : ℕ := 25

/-! ### Trees -/

structure FTreeSortedDictionary (K V : Type) (cmp : K → K → Ordering) where
  root : FLLRBNode K V
  sorted : Sorted cmp root.inorderTraversal
  balanced : root.Balanced

namespace FTreeSortedDictionary

open FLLRBNode

variable {cmp : K → K → Ordering}

/-- The loop of `get:`. -/
def search (cmp : K → K → Ordering) (key : K) : FLLRBNode K V → Option V
  | empty => none
  | value nodeKey val _ left right =>
    match cmp key nodeKey with
    | .eq => some val
    | .lt => search cmp key left
    | .gt => search cmp key right

def get (d : FTreeSortedDictionary K V cmp) (key : K) : Option V := search cmp key d.root

/-- The loop of `getPredecessorKey:`, with the key of the last node gone right from; `none` when
it throws. -/
def predecessor (cmp : K → K → Ordering) (key : K) :
    FLLRBNode K V → Option K → Option (Option K)
  | empty, _ => none
  | value nodeKey _ _ left right, rightParent =>
    match cmp key nodeKey with
    | .eq => some (if left.isEmpty then rightParent else left.maxKey)
    | .lt => predecessor cmp key left rightParent
    | .gt => predecessor cmp key right (some nodeKey)

def getPredecessorKey (d : FTreeSortedDictionary K V cmp) (key : K) : Option (Option K) :=
  predecessor cmp key d.root none

/-- The sorted entries of a dictionary whose keys have no order; raises for keys that are the
same to the comparator. -/
def sortedEntries (cmp : K → K → Ordering) (dictionary : List (K × V)) :
    Option {es : List (K × V) // es.IsChain (fun e f => cmp e.1 f.1 = .lt) ∧ es ~ dictionary} :=
  let es := dictionary.mergeSort fun e f => cmp e.1 f.1 ≠ .gt
  if h : es.IsChain fun e f => cmp e.1 f.1 = .lt then some ⟨es, h, List.mergeSort_perm ..⟩
  else none

lemma sorted_of_isChain [Std.TransCmp cmp] {es : List (K × V)}
    (h : es.IsChain fun e f => cmp e.1 f.1 = .lt) : Sorted cmp es := by
  have : IsTrans (K × V) fun e f => cmp e.1 f.1 = .lt := ⟨fun _ _ _ => Std.TransCmp.lt_trans⟩
  exact List.isChain_iff_pairwise.mp h

variable [Std.TransCmp cmp]

def fromDictionary (dictionary : List (K × V)) : Option (FTreeSortedDictionary K V cmp) :=
  (sortedEntries cmp dictionary).map fun es =>
    ⟨buildRoot es.1, by rw [(buildRoot_spec es.1).1]; exact sorted_of_isChain es.2.1,
      (buildRoot_spec es.1).2⟩

def insertKey (d : FTreeSortedDictionary K V cmp) (aKey : K) (aValue : V) :
    FTreeSortedDictionary K V cmp where
  root := (d.root.insertKey cmp aKey aValue).withColor BLACK
  sorted := by
    rw [inorder_withColor, inorder_insertKey d.sorted]
    exact sorted_insert d.sorted _ aValue
  balanced := balanced_insertKey d.balanced aKey aValue

def removeKey (d : FTreeSortedDictionary K V cmp) (aKey : K) : FTreeSortedDictionary K V cmp :=
  if (d.get aKey).isSome then
    ⟨(d.root.remove cmp aKey).withColor BLACK,
      by rw [(balanced_remove d.balanced d.sorted aKey).2]; exact sorted_erase d.sorted aKey,
      (balanced_remove d.balanced d.sorted aKey).1⟩
  else d

end FTreeSortedDictionary

/-! ### Arrays -/

structure FArraySortedDictionary (K V : Type) (cmp : K → K → Ordering) where
  entries : List (K × V)
  sorted : Sorted cmp entries
  small : entries.length ≤ arrayToTreeThreshold

namespace FArraySortedDictionary

variable {cmp : K → K → Ordering}

/-- The position of a key; the search ends at the first key that is larger. -/
def findKey (cmp : K → K → Ordering) (key : K) : List (K × V) → Option ℕ
  | [] => none
  | e :: es =>
    match cmp key e.1 with
    | .eq => some 0
    | .lt => none
    | .gt => (findKey cmp key es).map (· + 1)

/-- The first position whose key is not smaller. -/
def findInsertPositionForKey (cmp : K → K → Ordering) (key : K) : List (K × V) → ℕ
  | [] => 0
  | e :: es => if cmp e.1 key = .lt then findInsertPositionForKey cmp key es + 1 else 0

def get (d : FArraySortedDictionary K V cmp) (key : K) : Option V :=
  match findKey cmp key d.entries with
  | none => none
  | some pos => d.entries[pos]?.map Prod.snd

def getPredecessorKey (d : FArraySortedDictionary K V cmp) (key : K) : Option (Option K) :=
  match findKey cmp key d.entries with
  | none => none
  | some 0 => some none
  | some (pos + 1) => some (d.entries[pos]?.map Prod.fst)

/-! What the positions mean. -/

lemma findKey_some {key : K} {es : List (K × V)} {pos : ℕ} (h : findKey cmp key es = some pos) :
    ∃ e, es[pos]? = some e ∧ cmp key e.1 = .eq ∧ ∀ f ∈ es.take pos, cmp key f.1 = .gt := by
  induction es generalizing pos with
  | nil => simp [findKey] at h
  | cons e es ih =>
    rw [findKey] at h
    split at h
    · rename_i heq
      obtain rfl : 0 = pos := by simpa using h
      exact ⟨e, rfl, heq, by simp⟩
    · cases h
    · rename_i hgt
      obtain ⟨q, hq, rfl⟩ := Option.map_eq_some_iff.mp h
      obtain ⟨f, hf, heq, hall⟩ := ih hq
      refine ⟨f, by simpa using hf, heq, ?_⟩
      simpa [hgt] using hall

lemma insert_of_findKey {key : K} {es : List (K × V)} {pos : ℕ} (h : findKey cmp key es = some pos)
    (v : V) : SortedList.insert cmp key v es = es.set pos (key, v) := by
  induction es generalizing pos with
  | nil => simp [findKey] at h
  | cons e es ih =>
    rw [findKey] at h
    rw [SortedList.insert]
    split at h
    · obtain rfl : 0 = pos := by simpa using h
      simp [*]
    · cases h
    · obtain ⟨q, hq, rfl⟩ := Option.map_eq_some_iff.mp h
      simp [*, ih hq]

lemma erase_of_findKey {key : K} {es : List (K × V)} {pos : ℕ}
    (h : findKey cmp key es = some pos) : erase cmp key es = es.eraseIdx pos := by
  induction es generalizing pos with
  | nil => simp [findKey] at h
  | cons e es ih =>
    rw [findKey] at h
    rw [erase]
    split at h
    · obtain rfl : 0 = pos := by simpa using h
      simp [*]
    · cases h
    · obtain ⟨q, hq, rfl⟩ := Option.map_eq_some_iff.mp h
      simp [*, ih hq]

variable [Std.TransCmp cmp]

lemma find_of_findKey {key : K} {es : List (K × V)} (hs : Sorted cmp es) :
    find cmp key es = (findKey cmp key es).bind fun pos => es[pos]?.map Prod.snd := by
  induction es with
  | nil => rfl
  | cons e es ih =>
    obtain ⟨he, hes⟩ := sorted_cons.mp hs
    rw [find, findKey]
    cases hk : cmp key e.1
    · have hnone : find cmp key es = none := by
        refine find_of_forall_ne fun f hf heq => ?_
        rw [Std.TransCmp.lt_trans hk (he f hf)] at heq
        cases heq
      simp [hnone]
    · simp
    · rw [ih hes]
      cases findKey cmp key es <;> simp

/-- A key that is not found has its place. -/
lemma insert_of_findKey_none {key : K} {es : List (K × V)} (hs : Sorted cmp es)
    (h : findKey cmp key es = none) (v : V) : SortedList.insert cmp key v es =
      es.insertIdx (findInsertPositionForKey cmp key es) (key, v) := by
  induction es with
  | nil => simp [SortedList.insert, findInsertPositionForKey]
  | cons e es ih =>
    rw [findKey] at h
    rw [SortedList.insert, findInsertPositionForKey]
    split at h
    · cases h
    · rename_i hlt
      have hek : cmp e.1 key ≠ .lt := Std.OrientedCmp.not_lt_of_lt hlt
      simp [hlt, hek]
    · rename_i hgt
      have hek : cmp e.1 key = .lt := Std.OrientedCmp.gt_iff_lt.mp hgt
      simp [hgt, hek, ih (sorted_cons.mp hs).2 (by simpa using h)]

end FArraySortedDictionary

/-! ### Both -/

inductive FImmutableSortedDictionary (K V : Type) (cmp : K → K → Ordering)
  | array (d : FArraySortedDictionary K V cmp)
  | tree (d : FTreeSortedDictionary K V cmp)

namespace FArraySortedDictionary

variable {cmp : K → K → Ordering} [Std.TransCmp cmp]

def fromDictionary (dictionary : List (K × V)) (h : dictionary.length ≤ arrayToTreeThreshold) :
    Option (FArraySortedDictionary K V cmp) :=
  (FTreeSortedDictionary.sortedEntries cmp dictionary).map fun es =>
    ⟨es.1, FTreeSortedDictionary.sorted_of_isChain es.2.1, es.2.2.length_eq.trans_le h⟩

/-- Over the threshold the entries go to a tree, by way of a dictionary without order. -/
def insertKey (d : FArraySortedDictionary K V cmp) (key : K) (val : V) :
    Option (FImmutableSortedDictionary K V cmp) :=
  match h : findKey cmp key d.entries with
  | none =>
    if hsmall : arrayToTreeThreshold ≤ d.entries.length then
      (FTreeSortedDictionary.fromDictionary (d.entries ++ [(key, val)])).map .tree
    else
      some (.array
        ⟨d.entries.insertIdx (findInsertPositionForKey cmp key d.entries) (key, val),
          by rw [← insert_of_findKey_none d.sorted h val]; exact sorted_insert d.sorted key val,
          (List.length_insertIdx_le_succ ..).trans (by omega)⟩)
  | some pos =>
    some (.array
      ⟨d.entries.set pos (key, val),
        by rw [← insert_of_findKey h]; exact sorted_insert d.sorted key val,
        by rw [List.length_set]; exact d.small⟩)

def removeKey (d : FArraySortedDictionary K V cmp) (key : K) : FArraySortedDictionary K V cmp :=
  match h : findKey cmp key d.entries with
  | none => d
  | some pos =>
    ⟨d.entries.eraseIdx pos, by rw [← erase_of_findKey h]; exact sorted_erase d.sorted key,
      (List.length_eraseIdx_le ..).trans d.small⟩

end FArraySortedDictionary

namespace FImmutableSortedDictionary

variable {cmp : K → K → Ordering}

/-- What `enumerateKeysAndObjectsUsingBlock:` goes through. -/
def entries : FImmutableSortedDictionary K V cmp → List (K × V)
  | array d => d.entries
  | tree d => d.root.inorderTraversal

def dictionaryWithComparator (cmp : K → K → Ordering) : FImmutableSortedDictionary K V cmp :=
  array ⟨[], sorted_nil, Nat.zero_le _⟩

def get : FImmutableSortedDictionary K V cmp → K → Option V
  | array d, key => d.get key
  | tree d, key => d.get key

def getPredecessorKey : FImmutableSortedDictionary K V cmp → K → Option (Option K)
  | array d, key => d.getPredecessorKey key
  | tree d, key => d.getPredecessorKey key

def count : FImmutableSortedDictionary K V cmp → ℕ
  | array d => d.entries.length
  | tree d => d.root.count

def minKey : FImmutableSortedDictionary K V cmp → Option K
  | array d => d.entries.head?.map Prod.fst
  | tree d => d.root.minKey

def maxKey : FImmutableSortedDictionary K V cmp → Option K
  | array d => d.entries.getLast?.map Prod.fst
  | tree d => d.root.maxKey

lemma sorted_entries (d : FImmutableSortedDictionary K V cmp) : Sorted cmp d.entries := by
  cases d with
  | array d => exact d.sorted
  | tree d => exact d.sorted

lemma count_eq (d : FImmutableSortedDictionary K V cmp) : d.count = d.entries.length := by
  cases d with
  | array d => rfl
  | tree d => exact FLLRBNode.count_eq d.root

lemma minKey_eq (d : FImmutableSortedDictionary K V cmp) :
    d.minKey = d.entries.head?.map Prod.fst := by
  cases d with
  | array d => rfl
  | tree d => exact congrArg (Option.map Prod.fst) (FLLRBNode.min_eq d.root)

lemma maxKey_eq (d : FImmutableSortedDictionary K V cmp) :
    d.maxKey = d.entries.getLast?.map Prod.fst := by
  cases d with
  | array d => rfl
  | tree d => exact FLLRBNode.maxKey_eq d.root

variable [Std.TransCmp cmp]

def fromDictionary (dictionary : List (K × V)) : Option (FImmutableSortedDictionary K V cmp) :=
  if h : dictionary.length ≤ arrayToTreeThreshold then
    (FArraySortedDictionary.fromDictionary dictionary h).map array
  else (FTreeSortedDictionary.fromDictionary dictionary).map tree

/-! ### What the operations do -/

/-- Entries with keys that the comparator tells apart are sorted. -/
lemma exists_sortedEntries {dictionary : List (K × V)}
    (h : dictionary.Pairwise fun e f => cmp e.1 f.1 ≠ .eq) :
    ∃ es, FTreeSortedDictionary.sortedEntries cmp dictionary = some es := by
  have hsorted : (dictionary.mergeSort fun e f => cmp e.1 f.1 ≠ .gt).Pairwise
      fun e f => cmp e.1 f.1 ≠ .gt := by
    refine (List.pairwise_mergeSort (fun a b c => ?_) (fun a b => ?_) dictionary).imp
      of_decide_eq_true
    · simp only [decide_eq_true_eq, Ordering.ne_gt_iff_isLE]
      exact Std.TransCmp.isLE_trans
    · simp only [Bool.or_eq_true, decide_eq_true_eq]
      by_contra h
      obtain ⟨hab, hba⟩ := not_or.mp h
      rw [not_not, Std.OrientedCmp.gt_iff_lt] at hab
      exact hba (by simp [hab])
  have hne : (dictionary.mergeSort fun e f => cmp e.1 f.1 ≠ .gt).Pairwise
      fun e f => cmp e.1 f.1 ≠ .eq := by
    refine (List.mergeSort_perm ..).symm.pairwise h fun {e f} h heq => h ?_
    exact Std.OrientedCmp.eq_symm heq
  have hchain : (dictionary.mergeSort fun e f => cmp e.1 f.1 ≠ .gt).IsChain
      fun e f => cmp e.1 f.1 = .lt := by
    refine (List.Pairwise.imp ?_ (hsorted.and hne)).isChain
    rintro e f ⟨hgt, heq⟩
    cases hc : cmp e.1 f.1 <;> simp_all
  unfold FTreeSortedDictionary.sortedEntries
  exact ⟨_, dif_pos hchain⟩

lemma search_eq {key : K} {n : FLLRBNode K V} (hn : Sorted cmp n.inorderTraversal) :
    FTreeSortedDictionary.search cmp key n = find cmp key n.inorderTraversal := by
  induction n with
  | empty => rfl
  | value k v c l r ihl ihr =>
    obtain ⟨hl, hr, -⟩ := sorted_middle.mp hn
    rw [FTreeSortedDictionary.search, FLLRBNode.inorderTraversal]
    split
    · rename_i heq
      exact (find_middle hn heq).symm
    · rename_i hlt
      rw [ihl hl, find_left hn hlt]
    · rename_i hgt
      rw [ihr hr, find_right hn hgt]

/-- **Lookup** finds what is in the entries. -/
lemma get_eq (d : FImmutableSortedDictionary K V cmp) (key : K) :
    d.get key = find cmp key d.entries := by
  cases d with
  | array d =>
    rw [entries, FArraySortedDictionary.find_of_findKey d.sorted, get, FArraySortedDictionary.get]
    cases FArraySortedDictionary.findKey cmp key d.entries <;> rfl
  | tree d => exact search_eq d.sorted

lemma predecessor_eq {key : K} {n : FLLRBNode K V} (hn : Sorted cmp n.inorderTraversal)
    (rightParent : Option K) :
    FTreeSortedDictionary.predecessor cmp key n rightParent =
      (find cmp key n.inorderTraversal).map fun _ =>
        ((below cmp key n.inorderTraversal).getLast?.map Prod.fst).or rightParent := by
  induction n generalizing rightParent with
  | empty => rfl
  | value k v c l r ihl ihr =>
    obtain ⟨hl, hr, hlk, -⟩ := sorted_middle.mp hn
    rw [FTreeSortedDictionary.predecessor, FLLRBNode.inorderTraversal]
    split
    · rename_i heq
      have hlt : ∀ f ∈ l.inorderTraversal, cmp f.1 key = .lt := fun f hf =>
        Std.OrientedCmp.gt_iff_lt.mp (gt_of_not_lt (by simp [heq]) (hlk f hf))
      rw [find_middle hn heq, below_left hn (by simp [heq]), below_eq_self hlt, Option.map_some,
        ← FLLRBNode.maxKey_eq]
      cases l with
      | empty => rfl
      | value k' v' c' l' r' =>
        have hmax : ∃ m, (FLLRBNode.value k' v' c' l' r').maxKey = some m := by
          rw [FLLRBNode.maxKey_eq, FLLRBNode.inorderTraversal]
          simp [List.getLast?_append, List.getLast?_cons]
        obtain ⟨m, hm⟩ := hmax
        rw [hm]
        rfl
    · rename_i hlt
      rw [ihl hl, find_left hn hlt, below_left hn (by simp [hlt])]
    · rename_i hgt
      rw [ihr hr, find_right hn hgt, below_right hn hgt]
      rw [List.getLast?_append, List.getLast?_cons]
      cases (below cmp key r.inorderTraversal).getLast? <;> simp

lemma predecessor_array {key : K} {es : List (K × V)} (hs : Sorted cmp es) :
    (match FArraySortedDictionary.findKey cmp key es with
      | none => none
      | some 0 => some none
      | some (pos + 1) => some (es[pos]?.map Prod.fst)) =
      (find cmp key es).map fun _ => (below cmp key es).getLast?.map Prod.fst := by
  cases hkey : FArraySortedDictionary.findKey cmp key es with
  | none => simp [FArraySortedDictionary.find_of_findKey hs, hkey]
  | some pos =>
    obtain ⟨e, he, heq, hgt⟩ := FArraySortedDictionary.findKey_some hkey
    obtain ⟨hlt, rfl⟩ := List.getElem?_eq_some_iff.mp he
    have hsplit : es = es.take pos ++ es[pos] :: es.drop (pos + 1) := by simp
    have hbelow : below cmp key es = es.take pos := by
      rw [hsplit] at hs
      rw [hsplit, below_left hs (by simp [heq]), ← hsplit]
      exact below_eq_self fun f hf => Std.OrientedCmp.gt_iff_lt.mp (hgt f hf)
    rw [FArraySortedDictionary.find_of_findKey hs, hkey, hbelow, Option.bind_some, he]
    cases pos with
    | zero => simp
    | succ q => simp [List.getLast?_take, Nat.lt_of_succ_lt hlt]

/-- **The key before a key**, which throws for a key that is not there. -/
theorem getPredecessorKey_eq (d : FImmutableSortedDictionary K V cmp) (key : K) :
    d.getPredecessorKey key =
      (d.get key).map fun _ => (below cmp key d.entries).getLast?.map Prod.fst := by
  rw [get_eq]
  cases d with
  | array d => exact predecessor_array d.sorted
  | tree d =>
    refine (predecessor_eq d.sorted none).trans ?_
    simp only [Option.or_none]
    rfl

def threeKeys : List (FImmutableSortedDictionary ℕ ℕ compare) :=
  [array ⟨[(1, 5), (2, 6), (4, 7)], by decide, by decide⟩,
   tree ⟨.value 2 6 FLLRBNode.BLACK (.value 1 5 FLLRBNode.BLACK .empty .empty)
      (.value 4 7 FLLRBNode.BLACK .empty .empty), by decide, rfl, 2, rfl⟩]

theorem getPredecessorKey_three :
    threeKeys.map (fun d => d.getPredecessorKey 4) = [some (some 2), some (some 2)] ∧
      threeKeys.map (fun d => d.getPredecessorKey 3) = [none, none] := by
  simp only [getPredecessorKey_eq]
  decide

lemma tree_fromDictionary {dictionary : List (K × V)}
    (h : dictionary.Pairwise fun e f => cmp e.1 f.1 ≠ .eq) :
    ∃ d : FTreeSortedDictionary K V cmp, FTreeSortedDictionary.fromDictionary dictionary = some d ∧
      d.root.inorderTraversal ~ dictionary := by
  obtain ⟨es, hes⟩ := exists_sortedEntries h
  rw [FTreeSortedDictionary.fromDictionary, hes]
  refine ⟨_, rfl, ?_⟩
  rw [(FTreeSortedDictionary.buildRoot_spec es.1).1]
  exact es.2.2

lemma exists_fromDictionary {dictionary : List (K × V)}
    (h : dictionary.Pairwise fun e f => cmp e.1 f.1 ≠ .eq) :
    ∃ d : FImmutableSortedDictionary K V cmp, fromDictionary dictionary = some d ∧
      d.entries ~ dictionary := by
  unfold fromDictionary
  split
  · obtain ⟨es, hes⟩ := exists_sortedEntries h
    rw [FArraySortedDictionary.fromDictionary, hes]
    exact ⟨_, rfl, es.2.2⟩
  · obtain ⟨d, hd, hperm⟩ := tree_fromDictionary h
    rw [hd]
    exact ⟨_, rfl, hperm⟩

/-- **A dictionary without order** becomes one in order when no two of its keys are the same to
the comparator. -/
theorem fromDictionary_spec {dictionary : List (K × V)}
    (h : dictionary.Pairwise fun e f => cmp e.1 f.1 ≠ .eq) :
    ∃ d : FImmutableSortedDictionary K V cmp, fromDictionary dictionary = some d ∧
      d.entries ~ dictionary ∧ Sorted cmp d.entries ∧
      ∀ e ∈ dictionary, d.get e.1 = some e.2 := by
  obtain ⟨d, hd, hperm⟩ := exists_fromDictionary h
  refine ⟨d, hd, hperm, d.sorted_entries, fun e he => ?_⟩
  rw [get_eq, find_eq_some_iff_tie d.sorted_entries]
  exact ⟨e.1, Std.ReflCmp.compare_self, hperm.mem_iff.mpr he⟩

/-- Two entries, which make an array, and twenty-six, which make a tree. -/
theorem fromDictionary_two :
    (∃ d : FImmutableSortedDictionary ℕ ℕ compare, fromDictionary [(2, 5), (1, 7)] = some d ∧
      d.entries ~ [(2, 5), (1, 7)] ∧ Sorted compare d.entries ∧
      ∀ e ∈ [(2, 5), (1, 7)], d.get e.1 = some e.2) ∧
    ∃ d : FImmutableSortedDictionary ℕ ℕ compare,
      fromDictionary ((List.range 26).map fun i => (25 - i, i)) = some d ∧
      d.entries ~ ((List.range 26).map fun i => (25 - i, i)) ∧ Sorted compare d.entries ∧
      ∀ e ∈ (List.range 26).map fun i => (25 - i, i), d.get e.1 = some e.2 :=
  ⟨fromDictionary_spec (by decide), fromDictionary_spec (by decide)⟩

/-- **One insertion into an array** never throws. -/
lemma insertKey_array (d : FArraySortedDictionary K V cmp) (key : K) (val : V) :
    ∃ d', d.insertKey key val = some d' ∧
      d'.entries = SortedList.insert cmp key val d.entries := by
  unfold FArraySortedDictionary.insertKey
  split
  · rename_i hnone
    have hinsert := FArraySortedDictionary.insert_of_findKey_none d.sorted hnone val
    split
    · -- all keys are different, so the tree can be built
      have hfind : find cmp key d.entries = none := by
        rw [FArraySortedDictionary.find_of_findKey d.sorted, hnone]
        rfl
      have hsorted := sorted_insert d.sorted key val
      have hperm : SortedList.insert cmp key val d.entries ~ d.entries ++ [(key, val)] :=
        (insert_perm hfind val).trans (List.perm_append_singleton (key, val) d.entries).symm
      have hne : (d.entries ++ [(key, val)]).Pairwise fun e f => cmp e.1 f.1 ≠ .eq := by
        refine hperm.pairwise (hsorted.imp fun h => by simp [h]) fun h heq => h ?_
        exact Std.OrientedCmp.eq_symm heq
      obtain ⟨t, ht, htperm⟩ := tree_fromDictionary hne
      rw [ht]
      exact ⟨_, rfl, eq_of_perm t.sorted hsorted (htperm.trans hperm.symm)⟩
    · exact ⟨_, rfl, hinsert.symm⟩
  · rename_i pos hpos
    exact ⟨_, rfl, (FArraySortedDictionary.insert_of_findKey hpos val).symm⟩

def insertKey : FImmutableSortedDictionary K V cmp → K → V →
    Option (FImmutableSortedDictionary K V cmp)
  | array d, key, val => d.insertKey key val
  | tree d, key, val => some (tree (d.insertKey key val))

def removeKey : FImmutableSortedDictionary K V cmp → K → FImmutableSortedDictionary K V cmp
  | array d, key => array (d.removeKey key)
  | tree d, key => tree (d.removeKey key)

/-- **One insertion** never throws, and puts the value at the key or at one that ties with it. -/
lemma insertKey_spec (d : FImmutableSortedDictionary K V cmp) (key : K) (val : V) :
    ∃ d' key', d.insertKey key val = some d' ∧ cmp key key' = .eq ∧
      d'.entries = SortedList.insert cmp key' val d.entries := by
  cases d with
  | tree d =>
    refine ⟨_, standing cmp key d.root.inorderTraversal, rfl, standing_tie key _, ?_⟩
    rw [entries, FTreeSortedDictionary.insertKey, FLLRBNode.inorder_withColor,
      FLLRBNode.inorder_insertKey d.sorted]
    rfl
  | array d =>
    obtain ⟨d', hd', hentries⟩ := insertKey_array d key val
    exact ⟨d', key, hd', Std.ReflCmp.compare_self, hentries⟩

lemma removeKey_entries (d : FImmutableSortedDictionary K V cmp) (key : K) :
    (d.removeKey key).entries = erase cmp key d.entries := by
  cases d with
  | array d =>
    show (d.removeKey key).entries = erase cmp key d.entries
    unfold FArraySortedDictionary.removeKey
    split
    · rename_i hnone
      refine (erase_of_find ?_ d.sorted).symm
      rw [FArraySortedDictionary.find_of_findKey d.sorted, hnone]
      rfl
    · rename_i pos hpos
      exact (FArraySortedDictionary.erase_of_findKey hpos).symm
  | tree d =>
    show (d.removeKey key).root.inorderTraversal = erase cmp key d.root.inorderTraversal
    unfold FTreeSortedDictionary.removeKey
    split
    · exact (FLLRBNode.balanced_remove d.balanced d.sorted key).2
    · rename_i hnone
      rw [FTreeSortedDictionary.get, search_eq d.sorted, Option.not_isSome_iff_eq_none] at hnone
      exact (erase_of_find hnone d.sorted).symm

/-! ### Runs -/

inductive Act (K V : Type)
  | insertKey (key : K) (val : V)
  | removeKey (key : K)

def step (d : FImmutableSortedDictionary K V cmp) :
    Act K V → Option (FImmutableSortedDictionary K V cmp)
  | .insertKey key val => d.insertKey key val
  | .removeKey key => some (d.removeKey key)

/-- What an operation does to the map that the dictionary stands for, in which the keys that
tie are one key. -/
def Act.effect (cmp : K → K → Ordering) (m : K → Option V) : Act K V → K → Option V
  | .insertKey key val, k => if cmp k key = .eq then some val else m k
  | .removeKey key, k => if cmp k key = .eq then none else m k

/-- The dictionary stands for a map: it answers as the map does, lists each of its entries
once and in order, and stays small or balanced. -/
structure Represents (d : FImmutableSortedDictionary K V cmp) (m : K → Option V) : Prop where
  get : ∀ key, d.get key = m key
  listed : ∀ key val, m key = some val ↔ ∃ k, cmp key k = .eq ∧ (k, val) ∈ d.entries
  sorted : Sorted cmp d.entries
  shape : match d with
    | array d => d.entries.length ≤ arrayToTreeThreshold
    | tree d => d.root.isRed = false ∧ d.root.checkMaxDepth = some true

lemma represents_get (d : FImmutableSortedDictionary K V cmp) : Represents d d.get where
  get _ := rfl
  listed key val := by rw [get_eq, find_eq_some_iff_tie d.sorted_entries]
  sorted := d.sorted_entries
  shape := by
    cases d with
    | array d => exact d.small
    | tree d =>
      obtain ⟨hred, h, hcheck⟩ := d.balanced
      have hdepth := FLLRBNode.two_pow_le_count hcheck
      exact ⟨hred, by rw [FLLRBNode.checkMaxDepth, hcheck, Option.map_some, decide_eq_true hdepth]⟩

/-- **One operation** does to the dictionary what it does to the map. -/
lemma step_spec (d : FImmutableSortedDictionary K V cmp) (a : Act K V) :
    ∃ t, step d a = some t ∧ t.get = a.effect cmp d.get := by
  cases a with
  | insertKey key val =>
    obtain ⟨t, key', ht, htie, hentries⟩ := d.insertKey_spec key val
    refine ⟨t, ht, funext fun k => ?_⟩
    rw [get_eq, hentries, find_insert_tie, ← get_eq, Act.effect, Std.TransCmp.congr_right htie]
  | removeKey key =>
    refine ⟨_, rfl, funext fun k => ?_⟩
    rw [get_eq, removeKey_entries, find_erase_tie d.sorted_entries, ← get_eq, Act.effect]

/-- **The dictionary is a map**: however many keys are put in and taken out of a dictionary,
nothing throws, and the array or tree it has become stands for the map that the operations make
of what it stood for. -/
theorem run_represents (d : FImmutableSortedDictionary K V cmp) (as : List (Act K V)) :
    ∃ t, Run.run step d as = some t ∧
      Represents t (as.foldl (Act.effect cmp) d.get) := by
  induction as generalizing d with
  | nil => exact ⟨d, rfl, d.represents_get⟩
  | cons a as ih =>
    obtain ⟨t, ht, hget⟩ := step_spec d a
    obtain ⟨u, hu, hrep⟩ := ih t
    rw [hget] at hrep
    exact ⟨u, by rw [Run.run_cons, ht, Option.bind_some, hu], hrep⟩

/-- Thirty keys, one of them taken out again. -/
def thirtyKeys : List (Act ℕ ℕ) :=
  (List.range 30).map (fun i => .insertKey i (i * i)) ++ [.removeKey 3]

theorem run_represents_thirtyKeys :
    ∃ t, Run.run step (dictionaryWithComparator (compare : ℕ → ℕ → Ordering)) thirtyKeys = some t ∧
      Represents t (thirtyKeys.foldl (Act.effect compare)
        (dictionaryWithComparator (compare : ℕ → ℕ → Ordering)).get) :=
  run_represents _ _

end FImmutableSortedDictionary

end Solta
