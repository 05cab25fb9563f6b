import Solta.Lib.Overwrite
import Solta.Lib.SortedList

/-!
The nodes of the database.

A node is a leaf, or it has children; the empty node is the one with no children. The children
are a sorted dictionary, here the list of its entries in order. Nodes have no priorities, which
the app does not write.
-/

namespace Solta

open Lib SortedList Overwrite

/-- `FLeafNode` and `FChildrenNode`. -/
inductive FNode (K V : Type)
  | leaf (value : V)
  | children (children : List (K × FNode K V))

namespace FNode

variable {K V : Type}

/-- `[FEmptyNode emptyNode]`. -/
def emptyNode : FNode K V := children []

def isEmpty : FNode K V → Bool
  | leaf _ => false
  | children cs => cs.isEmpty

variable (cmp : K → K → Ordering)

def getImmediateChild : FNode K V → K → FNode K V
  | leaf _, _ => emptyNode
  | children cs, childName => (find cmp childName cs).getD emptyNode

def getChild : FNode K V → List K → FNode K V
  | n, [] => n
  | n, front :: path => (n.getImmediateChild cmp front).getChild path

/-- A leaf that gets a child is one no more. -/
def updateImmediateChild (n : FNode K V) (childName : K) (newChildNode : FNode K V) : FNode K V :=
  match n with
  | leaf v => if newChildNode.isEmpty then leaf v else children [(childName, newChildNode)]
  | children cs =>
    if newChildNode.isEmpty then children (erase cmp childName cs)
    else children (SortedList.insert cmp childName newChildNode cs)

def updateChild : FNode K V → List K → FNode K V → FNode K V
  | _, [], newChildNode => newChildNode
  | leaf v, front :: path, newChildNode =>
    if newChildNode.isEmpty then leaf v
    else (leaf v).updateImmediateChild cmp front (emptyNode.updateChild path newChildNode)
  | children cs, front :: path, newChildNode =>
    (children cs).updateImmediateChild cmp front
      (((children cs).getImmediateChild cmp front).updateChild path newChildNode)

/-- What is at the leaf at a path. -/
def valueAt (n : FNode K V) : Leaves K V := fun path =>
  match n.getChild cmp path with
  | leaf v => some v
  | children _ => none

/-- What the operations keep: the children of a node are in order, and none of them is empty. -/
inductive Canonical : FNode K V → Prop
  | leaf (v : V) : Canonical (leaf v)
  | children {cs : List (K × FNode K V)} (sorted : Sorted cmp cs)
      (canonical : ∀ e ∈ cs, Canonical e.2) (nonempty : ∀ e ∈ cs, e.2.isEmpty = false) :
      Canonical (children cs)

variable {cmp} {n m : FNode K V} {k k' : K} {p q : List K} {v : V}

lemma canonical_emptyNode : Canonical cmp (emptyNode : FNode K V) :=
  .children sorted_nil (by simp) (by simp)

lemma eq_emptyNode (h : n.isEmpty = true) : n = emptyNode := by
  cases n with
  | leaf v => cases h
  | children cs => rw [List.isEmpty_iff.mp h, emptyNode]

@[simp] lemma isEmpty_emptyNode : (emptyNode : FNode K V).isEmpty = true := rfl

@[simp] lemma getImmediateChild_emptyNode :
    (emptyNode : FNode K V).getImmediateChild cmp k = emptyNode := rfl

@[simp] lemma getChild_nil (n : FNode K V) : n.getChild cmp [] = n := rfl

lemma getChild_cons (n : FNode K V) (k : K) (p : List K) :
    n.getChild cmp (k :: p) = (n.getImmediateChild cmp k).getChild cmp p := rfl

@[simp] lemma getChild_emptyNode (p : List K) :
    (emptyNode : FNode K V).getChild cmp p = emptyNode := by
  induction p with
  | nil => rfl
  | cons k p ih => rw [getChild_cons, getImmediateChild_emptyNode, ih]

lemma getChild_append (n : FNode K V) (p q : List K) :
    n.getChild cmp (p ++ q) = (n.getChild cmp p).getChild cmp q := by
  induction p generalizing n with
  | nil => rfl
  | cons k p ih => rw [List.cons_append, getChild_cons, getChild_cons, ih]

@[simp] lemma valueAt_emptyNode : (emptyNode : FNode K V).valueAt cmp = fun _ => none := by
  funext p
  rw [valueAt, getChild_emptyNode]
  rfl

lemma valueAt_leaf : (leaf v : FNode K V).valueAt cmp [] = some v := rfl

lemma valueAt_children (cs : List (K × FNode K V)) : (children cs).valueAt cmp [] = none := rfl

lemma valueAt_cons (n : FNode K V) (k : K) (p : List K) :
    n.valueAt cmp (k :: p) = (n.getImmediateChild cmp k).valueAt cmp p := rfl

/-- **What is below a path** of a node. -/
lemma valueAt_getChild (n : FNode K V) (p : List K) :
    (n.getChild cmp p).valueAt cmp = Overwrite.below (n.valueAt cmp) p := by
  funext q
  simp only [valueAt, Overwrite.below, getChild_append]

lemma isEmpty_updateImmediateChild (n : FNode K V) (k : K) (hm : m.isEmpty = false) :
    (n.updateImmediateChild cmp k m).isEmpty = false := by
  cases n with
  | leaf v =>
    rw [updateImmediateChild, if_neg (by simp [hm])]
    rfl
  | children cs =>
    rw [updateImmediateChild, if_neg (by simp [hm])]
    cases cs with
    | nil => rfl
    | cons e cs =>
      rw [SortedList.insert]
      split <;> rfl

/-- The update of a child, for a node that is not empty. -/
lemma updateChild_cons (n : FNode K V) (k : K) (p : List K) (hm : m.isEmpty = false) :
    n.updateChild cmp (k :: p) m =
      n.updateImmediateChild cmp k ((n.getImmediateChild cmp k).updateChild cmp p m) := by
  cases n with
  | leaf v =>
    rw [updateChild, if_neg (by simp [hm])]
    rfl
  | children cs => rfl

lemma isEmpty_updateChild (n : FNode K V) (p : List K) (hm : m.isEmpty = false) :
    (n.updateChild cmp p m).isEmpty = false := by
  induction p generalizing n with
  | nil => cases n <;> exact hm
  | cons k p ih =>
    rw [updateChild_cons n k p hm]
    exact isEmpty_updateImmediateChild n k (ih _)

lemma valueAt_updateImmediateChild_nil (n : FNode K V) (k : K) (hm : m.isEmpty = false) :
    (n.updateImmediateChild cmp k m).valueAt cmp [] = none := by
  cases n with
  | leaf v => simp [updateImmediateChild, hm, valueAt_children]
  | children cs => simp [updateImmediateChild, hm, valueAt_children]

/-! ### Canonical nodes -/

lemma Canonical.updateImmediateChild [Std.TransCmp cmp] (hn : Canonical cmp n)
    (hm : Canonical cmp m) (k : K) : Canonical cmp (n.updateImmediateChild cmp k m) := by
  cases hn with
  | leaf v =>
    rw [FNode.updateImmediateChild]
    split
    · exact .leaf v
    · rename_i hne
      exact .children (by simp [Sorted]) (by simpa using hm) (by simpa using hne)
  | @children cs hs hc hne =>
    rw [FNode.updateImmediateChild]
    split
    · exact .children (sorted_erase hs k) (fun e he => hc e (mem_of_mem_erase he))
        fun e he => hne e (mem_of_mem_erase he)
    · rename_i hmne
      refine .children (sorted_insert hs k m) (fun e he => ?_) fun e he => ?_
      · rcases mem_insert he with rfl | he
        · exact hm
        · exact hc e he
      · rcases mem_insert he with rfl | he
        · simpa using hmne
        · exact hne e he

section canonical

variable [Std.TransCmp cmp] [Std.LawfulEqCmp cmp]

lemma Canonical.getImmediateChild (hn : Canonical cmp n) (k : K) :
    Canonical cmp (n.getImmediateChild cmp k) := by
  cases hn with
  | leaf v => exact canonical_emptyNode
  | @children cs hs hc hne =>
    rw [FNode.getImmediateChild]
    cases hfind : find cmp k cs with
    | none => exact canonical_emptyNode
    | some c => exact hc (k, c) ((find_eq_some_iff hs).mp hfind)

lemma Canonical.getChild (hn : Canonical cmp n) (p : List K) :
    Canonical cmp (n.getChild cmp p) := by
  induction p generalizing n with
  | nil => exact hn
  | cons k p ih => exact ih (hn.getImmediateChild k)

/-- **An update** keeps a node canonical. -/
lemma Canonical.updateChild (hn : Canonical cmp n) (hm : Canonical cmp m)
    (hne : m.isEmpty = false) (p : List K) : Canonical cmp (n.updateChild cmp p m) := by
  induction p generalizing n with
  | nil => cases n <;> exact hm
  | cons k p ih =>
    rw [updateChild_cons n k p hne]
    exact hn.updateImmediateChild (ih (hn.getImmediateChild k)) k

/-- There is a leaf in a node that is not empty. -/
lemma Canonical.exists_value (hn : Canonical cmp n) (hne : n.isEmpty = false) :
    ∃ p v, n.valueAt cmp p = some v := by
  induction hn with
  | leaf v => exact ⟨[], v, rfl⟩
  | @children cs hs hc hcne ih =>
    obtain ⟨⟨k, c⟩, he⟩ : ∃ e, e ∈ cs := List.exists_mem_of_ne_nil cs (by simpa [isEmpty] using hne)
    obtain ⟨p, v, hv⟩ := ih (k, c) he (hcne _ he)
    refine ⟨k :: p, v, ?_⟩
    rw [valueAt_cons, FNode.getImmediateChild, (find_eq_some_iff hs).mpr he]
    exact hv

/-- What is found in the children of a node, told by the leaves. -/
lemma find_eq_none_iff {cs : List (K × FNode K V)} (h : Canonical cmp (children cs)) (k : K) :
    find cmp k cs = none ↔ ∀ p, (children cs).valueAt cmp (k :: p) = none := by
  constructor
  · intro hfind p
    rw [valueAt_cons, FNode.getImmediateChild, hfind, Option.getD_none, valueAt_emptyNode]
  · intro hall
    cases h with
    | children hs hc hne =>
      cases hfind : find cmp k cs with
      | none => rfl
      | some c =>
        have he := (find_eq_some_iff hs).mp hfind
        obtain ⟨p, v, hv⟩ := (hc _ he).exists_value (hne _ he)
        have hnone := hall p
        rw [valueAt_cons, FNode.getImmediateChild, hfind, Option.getD_some, hv] at hnone
        cases hnone

/-- **Canonical nodes are one** when they have the same leaves. -/
theorem Canonical.ext_valueAt (hn : Canonical cmp n) (hm : Canonical cmp m)
    (h : n.valueAt cmp = m.valueAt cmp) : n = m := by
  induction hn generalizing m with
  | leaf v =>
    have hv : m.valueAt cmp [] = some v := by rw [← h, valueAt_leaf]
    cases m with
    | leaf w => rw [Option.some.inj hv]
    | children ds => cases hv
  | @children cs hs hc hne ih =>
    cases m with
    | leaf w => cases congrFun h []
    | children ds =>
      have hcs : Canonical cmp (FNode.children cs) := .children hs hc hne
      have hds := hm
      cases hm with
      | children hs' hc' hne' =>
        congr 1
        refine ext_find hs hs' fun k => ?_
        have hnone := (find_eq_none_iff hcs k).trans
          ((by rw [h] : _ ↔ _).trans (find_eq_none_iff hds k).symm)
        cases hfind : find cmp k cs with
        | none => rw [hnone.mp hfind]
        | some c =>
          cases hfind' : find cmp k ds with
          | none =>
            rw [hnone.mpr hfind'] at hfind
            cases hfind
          | some d =>
            have hmem := (find_eq_some_iff hs).mp hfind
            have hmem' := (find_eq_some_iff hs').mp hfind'
            congr 1
            refine ih (k, c) hmem (hc' (k, d) hmem') (funext fun p => ?_)
            have hp := congrFun h (k :: p)
            rw [valueAt_cons, valueAt_cons, FNode.getImmediateChild, FNode.getImmediateChild,
              hfind, hfind'] at hp
            exact hp

end canonical

/-! ### What a write does to the leaves -/

variable [DecidableEq K] [Std.TransCmp cmp] [Std.LawfulEqCmp cmp]

lemma getImmediateChild_updateImmediateChild (hn : Canonical cmp n) (k k' : K) :
    (n.updateImmediateChild cmp k m).getImmediateChild cmp k' =
      if k' = k then m else n.getImmediateChild cmp k' := by
  cases hn with
  | leaf v =>
    rw [updateImmediateChild]
    split
    · rename_i hm
      rw [eq_emptyNode hm]
      split <;> rfl
    · simp only [getImmediateChild, find, Std.LawfulEqCmp.compare_eq_iff_eq]
      split <;> rfl
  | @children cs hs hc hne =>
    rw [updateImmediateChild]
    split
    · rename_i hm
      rw [getImmediateChild, find_erase hs, eq_emptyNode hm, getImmediateChild]
      split <;> rfl
    · rw [getImmediateChild, find_insert, getImmediateChild]
      split <;> rfl

/-- **An update is a write**: it decides what is at and below its path, and takes away the leaves
above. -/
theorem valueAt_updateChild (hn : Canonical cmp n) (hne : m.isEmpty = false) (p : List K) :
    (n.updateChild cmp p m).valueAt cmp = put (n.valueAt cmp) p (m.valueAt cmp) := by
  induction p generalizing n with
  | nil => cases n <;> simp [updateChild]
  | cons k p ih =>
    rw [updateChild_cons n k p hne]
    funext q
    cases q with
    | nil =>
      rw [valueAt_updateImmediateChild_nil n k (isEmpty_updateChild _ p hne)]
      exact (put_above (by simp) (by simp)).symm
    | cons k' q =>
      rw [valueAt_cons, getImmediateChild_updateImmediateChild hn, put_cons]
      by_cases hk : k' = k
      · subst hk
        rw [if_pos rfl, if_pos rfl, ih (hn.getImmediateChild k')]
        rfl
      · rw [if_neg hk, if_neg (Ne.symm hk), valueAt_cons]

end FNode

end Solta
