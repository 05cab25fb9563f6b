import Solta.Database.Node

/-!
Writes as one tree.

A compound write has the nodes that were written at their paths; a write below another is made
into the other's node, and a write above others takes their place. Applied to a node it does
what its writes did one after the other. Writes have no priorities, which the app does not set.
-/

namespace Solta

open Lib Overwrite

open Lib.SortedList hiding below

/-- `FImmutableTree`: a value or none, and the children in the order of their keys. -/
inductive FImmutableTree (K T : Type)
  | node (value : Option T) (children : List (K × FImmutableTree K T))

namespace FImmutableTree

variable {K T : Type} (cmp : K → K → Ordering)

def empty : FImmutableTree K T := node none []

def value : FImmutableTree K T → Option T
  | node v _ => v

def children : FImmutableTree K T → List (K × FImmutableTree K T)
  | node _ cs => cs

def isEmpty (t : FImmutableTree K T) : Bool := t.value.isNone && t.children.isEmpty

/-- The shortest part of a path where there is a value. -/
def findRootMostValueAndPath : FImmutableTree K T → List K → Option (List K × T)
  | node (some v) _, _ => some ([], v)
  | node none _, [] => none
  | node none cs, front :: path =>
    match find cmp front cs with
    | none => none
    | some child => (child.findRootMostValueAndPath path).map fun r => (front :: r.1, r.2)

def subtreeAtPath : FImmutableTree K T → List K → FImmutableTree K T
  | t, [] => t
  | node _ cs, front :: path =>
    match find cmp front cs with
    | some child => child.subtreeAtPath path
    | none => empty

def setValue : FImmutableTree K T → Option T → List K → FImmutableTree K T
  | node _ cs, newValue, [] => node newValue cs
  | node v cs, newValue, front :: path =>
    node v (SortedList.insert cmp front
      (((find cmp front cs).getD empty).setValue newValue path) cs)

def setTree : FImmutableTree K T → FImmutableTree K T → List K → FImmutableTree K T
  | _, newTree, [] => newTree
  | node v cs, newTree, front :: path =>
    let newChild := ((find cmp front cs).getD empty).setTree newTree path
    node v (if newChild.isEmpty then erase cmp front cs
      else SortedList.insert cmp front newChild cs)

/-- What the operations keep: a value is at a leaf and has the property `P`, the children are in
order, and none of them is empty. -/
inductive Pruned (P : T → Prop) : FImmutableTree K T → Prop
  | value {v : T} (h : P v) : Pruned P (node (some v) [])
  | children {cs : List (K × FImmutableTree K T)} (sorted : Sorted cmp cs)
      (pruned : ∀ e ∈ cs, Pruned P e.2) (nonempty : ∀ e ∈ cs, e.2.isEmpty = false) :
      Pruned P (node none cs)

variable {cmp} {P : T → Prop} {t : FImmutableTree K T}

lemma pruned_empty : Pruned cmp P (empty : FImmutableTree K T) :=
  .children sorted_nil (by simp) (by simp)

lemma eq_empty (h : t.isEmpty = true) : t = empty := by
  obtain ⟨v, cs⟩ := t
  simp only [isEmpty, value, children, Bool.and_eq_true, Option.isNone_iff_eq_none,
    List.isEmpty_iff] at h
  rw [h.1, h.2, empty]

lemma isEmpty_insert (v : Option T) (k : K) (c : FImmutableTree K T)
    (cs : List (K × FImmutableTree K T)) :
    (node v (SortedList.insert cmp k c cs)).isEmpty = false := by
  cases cs with
  | nil => simp [isEmpty, value, children, SortedList.insert]
  | cons e cs =>
    rw [SortedList.insert]
    split <;> simp [isEmpty, value, children]

lemma isEmpty_setTree {newTree : FImmutableTree K T} (h : newTree.isEmpty = false) (p : List K)
    (t : FImmutableTree K T) : (t.setTree cmp newTree p).isEmpty = false := by
  induction p generalizing t with
  | nil => cases t; exact h
  | cons k p ih =>
    obtain ⟨v, cs⟩ := t
    simp only [setTree, ih, Bool.false_eq_true, if_false]
    exact isEmpty_insert ..

/-- The child for a key, the empty tree where there is none. -/
lemma Pruned.child [Std.TransCmp cmp] [Std.LawfulEqCmp cmp] {v : Option T}
    {cs : List (K × FImmutableTree K T)}
    (h : Pruned cmp P (node v cs)) (k : K) : Pruned cmp P ((find cmp k cs).getD empty) := by
  cases h with
  | value => exact pruned_empty
  | children hs hp hne =>
    cases hfind : find cmp k cs with
    | none => exact pruned_empty
    | some c => exact hp (k, c) ((find_eq_some_iff hs).mp hfind)

lemma Pruned.insert [Std.TransCmp cmp] {cs : List (K × FImmutableTree K T)}
    (h : Pruned cmp P (node none cs)) {c : FImmutableTree K T} (hc : Pruned cmp P c)
    (hne : c.isEmpty = false) (k : K) :
    Pruned cmp P (node none (SortedList.insert cmp k c cs)) := by
  cases h with
  | children hs hp hcne =>
    refine .children (sorted_insert hs k c) (fun e he => ?_) fun e he => ?_
    · rcases mem_insert he with rfl | he
      · exact hc
      · exact hp e he
    · rcases mem_insert he with rfl | he
      · exact hne
      · exact hcne e he

lemma Pruned.erase {cs : List (K × FImmutableTree K T)} (h : Pruned cmp P (node none cs)) (k : K) :
    Pruned cmp P (node none (SortedList.erase cmp k cs)) := by
  cases h with
  | children hs hp hcne =>
    exact .children (sorted_erase hs k) (fun e he => hp e (mem_of_mem_erase he))
      fun e he => hcne e (mem_of_mem_erase he)

end FImmutableTree

/-- `[FPath relativePathFrom:to:]`, for an outer path that contains the inner one. -/
def relativePathFrom {K : Type} (outer inner : List K) : List K := inner.drop outer.length

/-- `FCompoundWrite`, by its `writeTree`. -/
abbrev FCompoundWrite (K V : Type) := FImmutableTree K (FNode K V)

namespace FCompoundWrite

open FImmutableTree

variable {K V : Type} (cmp scmp : K → K → Ordering)

def emptyWrite : FCompoundWrite K V := empty

def addWrite (w : FCompoundWrite K V) (written : FNode K V) (path : List K) :
    FCompoundWrite K V :=
  if path.isEmpty then .node (some written) []
  else
    match w.findRootMostValueAndPath scmp path with
    | some (rootMostPath, rootMostValue) =>
      let relativePath := relativePathFrom rootMostPath path
      w.setValue scmp (some (rootMostValue.updateChild cmp relativePath written)) rootMostPath
    | none => w.setTree scmp (.node (some written) []) path

def removeWriteAtPath (w : FCompoundWrite K V) (path : List K) : FCompoundWrite K V :=
  if path.isEmpty then emptyWrite else w.setTree scmp empty path

def completeNodeAtPath (w : FCompoundWrite K V) (path : List K) : Option (FNode K V) :=
  match w.findRootMostValueAndPath scmp path with
  | some (rootMostPath, rootMostValue) =>
    some (rootMostValue.getChild cmp (relativePathFrom rootMostPath path))
  | none => none

def hasCompleteWriteAtPath (w : FCompoundWrite K V) (path : List K) : Bool :=
  (w.completeNodeAtPath cmp scmp path).isSome

def childCompoundWriteAtPath (w : FCompoundWrite K V) (path : List K) : FCompoundWrite K V :=
  if path.isEmpty then w
  else
    match w.completeNodeAtPath cmp scmp path with
    | some shadowingNode => .node (some shadowingNode) []
    | none => w.subtreeAtPath scmp path

mutual

def applySubtreeWrite : FCompoundWrite K V → List K → FNode K V → FNode K V
  | .node (some v) _, relativePath, toNode => toNode.updateChild cmp relativePath v
  | .node none cs, relativePath, toNode => applyChildren cs relativePath toNode

/-- The children of a write, in the order of their keys. -/
def applyChildren : List (K × FCompoundWrite K V) → List K → FNode K V → FNode K V
  | [], _, toNode => toNode
  | (childKey, childTree) :: cs, relativePath, toNode =>
    applyChildren cs relativePath
      (applySubtreeWrite childTree (relativePath ++ [childKey]) toNode)

end

def applyToNode (w : FCompoundWrite K V) (toNode : FNode K V) : FNode K V :=
  applySubtreeWrite cmp w [] toNode

/-- What is written: a node that is not empty. -/
def Written (m : FNode K V) : Prop := m.Canonical cmp ∧ m.isEmpty = false

/-- **What a write shows** of the leaves under it. -/
def layer : FCompoundWrite K V → Leaves K V → Leaves K V
  | .node (some v) _, _, q => v.valueAt cmp q
  | .node none cs, f, [] => if cs.isEmpty then f [] else none
  | .node none cs, f, k :: q =>
    match find scmp k cs with
    | some child => layer child (below f [k]) q
    | none => f (k :: q)

variable {cmp scmp} {w : FCompoundWrite K V} {m : FNode K V} {f : Leaves K V} {p q : List K}

lemma layer_value (v : FNode K V) (cs : List (K × FCompoundWrite K V)) (f : Leaves K V) :
    layer cmp scmp (.node (some v) cs) f = v.valueAt cmp := by
  funext q
  cases q <;> rfl

@[simp] lemma layer_empty (f : Leaves K V) : layer cmp scmp (empty : FCompoundWrite K V) f = f := by
  funext q
  cases q <;> rfl

lemma layer_cons (cs : List (K × FCompoundWrite K V)) (f : Leaves K V) (k : K) (q : List K) :
    layer cmp scmp (.node none cs) f (k :: q) =
      layer cmp scmp ((find scmp k cs).getD empty) (below f [k]) q := by
  rw [layer]
  split
  · rename_i h
    rw [h, Option.getD_some]
  · rename_i h
    rw [h, Option.getD_none, layer_empty]
    rfl

/-! ### What is complete -/

lemma findRootMost_empty (p : List K) :
    (empty : FCompoundWrite K V).findRootMostValueAndPath scmp p = none := by
  cases p <;> rfl

lemma completeNode_value (v : FNode K V) (cs : List (K × FCompoundWrite K V)) (p : List K) :
    completeNodeAtPath cmp scmp (.node (some v) cs) p = some (v.getChild cmp p) := by
  cases p <;> rfl

lemma completeNode_nil (cs : List (K × FCompoundWrite K V)) :
    completeNodeAtPath cmp scmp (.node none cs) [] = none := rfl

lemma completeNode_empty (p : List K) :
    completeNodeAtPath cmp scmp (empty : FCompoundWrite K V) p = none := by
  rw [completeNodeAtPath, findRootMost_empty]

lemma completeNode_cons (cs : List (K × FCompoundWrite K V)) (k : K) (p : List K) :
    completeNodeAtPath cmp scmp (.node none cs) (k :: p) =
      completeNodeAtPath cmp scmp ((find scmp k cs).getD empty) p := by
  rw [completeNodeAtPath, findRootMostValueAndPath]
  cases hfind : find scmp k cs with
  | none => rw [Option.getD_none, completeNode_empty]
  | some c =>
    rw [Option.getD_some, completeNodeAtPath]
    dsimp only
    cases c.findRootMostValueAndPath scmp p <;> rfl

lemma subtree_cons (v : Option (FNode K V)) (cs : List (K × FCompoundWrite K V)) (k : K)
    (p : List K) :
    subtreeAtPath scmp (.node v cs) (k :: p) =
      subtreeAtPath scmp ((find scmp k cs).getD empty) p := by
  rw [subtreeAtPath]
  split
  · rename_i h
    rw [h, Option.getD_some]
  · rename_i h
    rw [h, Option.getD_none]
    cases p <;> rfl

lemma complete_subtree (h : w.completeNodeAtPath cmp scmp p = none) (q : List K) :
    completeNodeAtPath cmp scmp (w.subtreeAtPath scmp p) q =
      w.completeNodeAtPath cmp scmp (p ++ q) := by
  induction p generalizing w with
  | nil => cases w; rfl
  | cons k p ih =>
    obtain ⟨v, cs⟩ := w
    cases v with
    | some v =>
      rw [completeNode_value] at h
      cases h
    | none =>
      rw [completeNode_cons] at h
      rw [subtree_cons, ih h, List.cons_append, completeNode_cons]

/-- The first of the children is written, then the others. -/
lemma layer_children [DecidableEq K] [Std.LawfulEqCmp scmp] {k : K} {c : FCompoundWrite K V}
    {cs : List (K × FCompoundWrite K V)} (hs : Sorted scmp ((k, c) :: cs)) (f : Leaves K V) :
    layer cmp scmp (.node none ((k, c) :: cs)) f =
      layer cmp scmp (.node none cs) (put f [k] (layer cmp scmp c (below f [k]))) := by
  obtain ⟨hlt, -⟩ := sorted_cons.mp hs
  funext q
  cases q with
  | nil =>
    rw [layer, layer, put_above (by simp) (by simp), if_neg (by simp), ite_self]
  | cons k' q =>
    rw [layer_cons, layer_cons, find_cons]
    by_cases hk : k' = k
    · subst hk
      have hnone : find scmp k' cs = none := by
        refine find_of_forall_ne fun e he heq => ?_
        have hlt' := hlt e he
        rw [heq] at hlt'
        cases hlt'
      rw [if_pos rfl, hnone, Option.getD_some, Option.getD_none, layer_empty]
      exact (put_append f _ [k'] q).symm
    · rw [if_neg hk]
      congr 1
      funext r
      exact (put_cons f _ k [] k' r).trans (if_neg (Ne.symm hk)) |>.symm

/-! ### A write is added -/

lemma addWrite_value (v m : FNode K V) (p : List K) :
    addWrite cmp scmp (.node (some v) []) m p = .node (some (v.updateChild cmp p m)) [] := by
  cases p with
  | nil => cases v <;> rfl
  | cons k p => rfl

lemma addWrite_nil (w : FCompoundWrite K V) (m : FNode K V) :
    addWrite cmp scmp w m [] = .node (some m) [] := rfl

/-- Where no write is above, a write goes to the child. -/
lemma addWrite_cons {P : FNode K V → Prop} {cs : List (K × FCompoundWrite K V)}
    [Std.TransCmp scmp] [Std.LawfulEqCmp scmp] (hw : Pruned scmp P (.node none cs))
    (m : FNode K V) (k : K) (p : List K) :
    addWrite cmp scmp (.node none cs) m (k :: p) =
      .node none (SortedList.insert scmp k
        (addWrite cmp scmp ((find scmp k cs).getD empty) m p) cs) := by
  have hchild := hw.child k
  have hnew : ∀ c : FCompoundWrite K V,
      (c.setTree scmp (.node (some m) []) p).isEmpty = false := isEmpty_setTree rfl p
  have htree : ∀ c : FCompoundWrite K V, c.findRootMostValueAndPath scmp p = none →
      addWrite cmp scmp c m p = c.setTree scmp (.node (some m) []) p := by
    intro c hc
    cases p with
    | nil => cases c; rfl
    | cons k p => rw [addWrite, if_neg (by simp), hc]
  rw [addWrite, if_neg (by simp), findRootMostValueAndPath]
  cases hfind : find scmp k cs with
  | none =>
    simp only [Option.getD_none]
    rw [htree _ (findRootMost_empty p), setTree, hfind, Option.getD_none]
    simp only [hnew, Bool.false_eq_true, if_false]
  | some c =>
    simp only [Option.getD_some]
    rw [hfind, Option.getD_some] at hchild
    cases hroot : c.findRootMostValueAndPath scmp p with
    | none =>
      rw [Option.map_none, htree c hroot]
      simp only [setTree, hfind, Option.getD_some, hnew, Bool.false_eq_true, if_false]
    | some r =>
      obtain ⟨rootMostPath, v⟩ := r
      have hadd : addWrite cmp scmp c m p =
          c.setValue scmp (some (v.updateChild cmp (relativePathFrom rootMostPath p) m))
            rootMostPath := by
        cases p with
        | cons k p => rw [addWrite, if_neg (by simp), hroot]
        | nil =>
          cases hchild with
          | children => cases hroot
          | value =>
            cases hroot
            cases v <;> rfl
      rw [hadd, Option.map_some]
      simp only [setValue, hfind, Option.getD_some]
      rfl

lemma isEmpty_addWrite {P : FNode K V → Prop} [Std.TransCmp scmp] [Std.LawfulEqCmp scmp]
    (hw : Pruned scmp P w) (m : FNode K V) (p : List K) :
    (addWrite cmp scmp w m p).isEmpty = false := by
  cases hw with
  | value =>
    rw [addWrite_value]
    rfl
  | children hs hp hne =>
    cases p with
    | nil => rfl
    | cons k p =>
      rw [addWrite_cons (.children hs hp hne)]
      exact isEmpty_insert ..

lemma hasComplete_addWrite {P : FNode K V → Prop} [DecidableEq K] [Std.TransCmp scmp]
    [Std.LawfulEqCmp scmp] (hw : Pruned scmp P w) (m : FNode K V) (p q : List K) :
    (addWrite cmp scmp w m p).hasCompleteWriteAtPath cmp scmp q ↔
      w.hasCompleteWriteAtPath cmp scmp q ∨ p <+: q := by
  induction p generalizing w q with
  | nil => simp [addWrite_nil, hasCompleteWriteAtPath, completeNode_value]
  | cons k p ih =>
    cases hw with
    | value => simp [addWrite_value, hasCompleteWriteAtPath, completeNode_value]
    | children hs hp hne =>
      have hnode : Pruned scmp P (.node none _) := .children hs hp hne
      rw [addWrite_cons hnode]
      cases q with
      | nil => simp [hasCompleteWriteAtPath, completeNode_nil]
      | cons k' q =>
        simp only [hasCompleteWriteAtPath, completeNode_cons, find_insert] at ih ⊢
        by_cases hk : k' = k
        · subst hk
          rw [if_pos rfl, Option.getD_some, ih (hnode.child k')]
          simp [List.cons_prefix_cons]
        · rw [if_neg hk]
          simp [List.cons_prefix_cons, Ne.symm hk]

section added

variable [Std.TransCmp cmp] [Std.LawfulEqCmp cmp] [Std.TransCmp scmp] [Std.LawfulEqCmp scmp]

lemma Written.updateChild {v : FNode K V} (hv : Written cmp v) (hm : Written cmp m) (p : List K) :
    Written cmp (v.updateChild cmp p m) :=
  ⟨hv.1.updateChild hm.1 hm.2 p, FNode.isEmpty_updateChild v p hm.2⟩

/-- A write that is added keeps the tree pruned. -/
lemma pruned_addWrite (hw : Pruned scmp (Written cmp) w) (hm : Written cmp m) (p : List K) :
    Pruned scmp (Written cmp) (addWrite cmp scmp w m p) := by
  induction p generalizing w with
  | nil => exact .value hm
  | cons k p ih =>
    cases hw with
    | value hv =>
      rw [addWrite_value]
      exact .value (hv.updateChild hm _)
    | children hs hp hne =>
      have hnode : Pruned scmp (Written cmp) (.node none _) := .children hs hp hne
      rw [addWrite_cons hnode]
      exact hnode.insert (ih (hnode.child k)) (isEmpty_addWrite (hnode.child k) m p) k

end added

section applied

variable [DecidableEq K] [Std.TransCmp cmp] [Std.LawfulEqCmp cmp] [Std.TransCmp scmp]
  [Std.LawfulEqCmp scmp]

/-- **A write that is added** is made over what the others show. -/
theorem layer_addWrite (hw : Pruned scmp (Written cmp) w) (hm : Written cmp m)
    (p : List K) (f : Leaves K V) :
    layer cmp scmp (addWrite cmp scmp w m p) f = put (layer cmp scmp w f) p (m.valueAt cmp) := by
  induction p generalizing w f with
  | nil => rw [addWrite_nil, layer_value, put_nil]
  | cons k p ih =>
    cases hw with
    | value hv =>
      rw [addWrite_value, layer_value, layer_value, FNode.valueAt_updateChild hv.1 hm.2]
    | @children cs hs hp hne =>
      have hnode : Pruned scmp (Written cmp) (.node none cs) := .children hs hp hne
      rw [addWrite_cons hnode]
      funext q
      cases q with
      | nil =>
        rw [put_above (by simp) (by simp), layer, if_neg]
        cases cs with
        | nil => simp [SortedList.insert]
        | cons e cs =>
          rw [SortedList.insert]
          split <;> simp
      | cons k' q =>
        rw [layer_cons, find_insert, put_cons]
        by_cases hk : k' = k
        · subst hk
          rw [if_pos rfl, if_pos rfl, Option.getD_some, ih (hnode.child k')]
          congr 1
          funext r
          rw [layer_cons]
        · rw [if_neg hk, if_neg (Ne.symm hk), layer_cons]

/-! ### A write is applied -/

variable (cmp scmp) in
/-- What applying a write leaves. -/
structure Applied (w : FCompoundWrite K V) (p : List K) (n r : FNode K V) : Prop where
  canonical : r.Canonical cmp
  valueAt : r.valueAt cmp = if w.isEmpty then n.valueAt cmp
    else put (n.valueAt cmp) p (layer cmp scmp w (below (n.valueAt cmp) p))

omit [Std.TransCmp cmp] [Std.LawfulEqCmp cmp] [Std.TransCmp scmp] in
lemma applied_children {cs : List (K × FCompoundWrite K V)} (hs : Sorted scmp cs)
    (hne : ∀ e ∈ cs, e.2.isEmpty = false)
    (ih : ∀ e ∈ cs, ∀ (p : List K) {n : FNode K V}, n.Canonical cmp →
      Applied cmp scmp e.2 p n (applySubtreeWrite cmp e.2 p n))
    (p : List K) {n : FNode K V} (hn : n.Canonical cmp) :
    Applied cmp scmp (.node none cs) p n (applyChildren cmp cs p n) := by
  induction cs generalizing n with
  | nil => exact ⟨hn, rfl⟩
  | cons e cs ihcs =>
    obtain ⟨k, c⟩ := e
    have hfirst := ih (k, c) (by simp) (p ++ [k]) hn
    have hc : c.isEmpty = false := hne (k, c) (by simp)
    have hrest := ihcs (sorted_cons.mp hs).2 (fun e he => hne e (by simp [he]))
      (fun e he => ih e (by simp [he])) hfirst.canonical
    have hwritten := hfirst.valueAt
    rw [if_neg (by simp [hc])] at hwritten
    refine ⟨hrest.canonical, ?_⟩
    rw [applyChildren, hrest.valueAt, hwritten, layer_children hs, below_below,
      if_neg (by simp [FImmutableTree.isEmpty, FImmutableTree.children] :
        ¬ (FImmutableTree.node none ((k, c) :: cs)).isEmpty = true)]
    split
    · rename_i hcs
      rw [FImmutableTree.eq_empty hcs, layer_empty, put_split]
    · rw [put_covered _ _ _ (List.prefix_append p [k]), below_put]

omit [Std.TransCmp scmp] in
lemma applied (hw : Pruned scmp (Written cmp) w) (p : List K) {n : FNode K V}
    (hn : n.Canonical cmp) :
    Applied cmp scmp w p n (applySubtreeWrite cmp w p n) := by
  induction hw generalizing p n with
  | @value v hv =>
    refine ⟨hn.updateChild hv.1 hv.2 p, ?_⟩
    rw [layer_value]
    exact FNode.valueAt_updateChild hn hv.2 p
  | children hs hp hne ih => exact applied_children hs hne (fun e he p n hn => ih e he p hn) p hn

omit [Std.TransCmp scmp] in
/-- **Applied to a node**, a write shows what it shows over the node's leaves. -/
theorem valueAt_applyToNode (hw : Pruned scmp (Written cmp) w) {n : FNode K V}
    (hn : n.Canonical cmp) :
    (applyToNode cmp w n).valueAt cmp = layer cmp scmp w (n.valueAt cmp) := by
  rw [applyToNode, (applied hw [] hn).valueAt, put_nil, below_nil]
  split
  · rename_i h
    rw [FImmutableTree.eq_empty h, layer_empty]
  · rfl

end applied

/-! ### What is shown where nothing is complete -/

section shown

variable [Std.TransCmp scmp] [Std.LawfulEqCmp scmp]

/-- What is complete is what is shown, whatever is under it. -/
lemma below_layer_of_complete [Std.TransCmp cmp] [Std.LawfulEqCmp cmp]
    (hw : Pruned scmp (Written cmp) w) {n : FNode K V}
    (h : w.completeNodeAtPath cmp scmp p = some n) (f : Leaves K V) :
    n.Canonical cmp ∧ below (layer cmp scmp w f) p = n.valueAt cmp := by
  induction p generalizing w f with
  | nil =>
    cases hw with
    | children => cases h
    | value hv =>
      rw [completeNode_value] at h
      cases h
      exact ⟨hv.1, by rw [layer_value]; rfl⟩
  | cons k p ih =>
    cases hw with
    | value hv =>
      rw [completeNode_value] at h
      cases h
      exact ⟨hv.1.getChild _, by rw [layer_value, FNode.valueAt_getChild]⟩
    | children hs hp hne =>
      rw [completeNode_cons] at h
      obtain ⟨hcanonical, hbelow⟩ := ih ((Pruned.children hs hp hne).child k) h (below f [k])
      refine ⟨hcanonical, ?_⟩
      rw [← hbelow]
      funext q
      exact layer_cons ..

/-- Where nothing is complete, the writes below show what they show. -/
lemma below_layer_of_incomplete (hw : Pruned scmp (Written cmp) w)
    (h : w.completeNodeAtPath cmp scmp p = none) (f : Leaves K V) :
    Pruned scmp (Written cmp) (w.subtreeAtPath scmp p) ∧
      below (layer cmp scmp w f) p = layer cmp scmp (w.subtreeAtPath scmp p) (below f p) := by
  induction p generalizing w f with
  | nil => cases w; exact ⟨hw, rfl⟩
  | cons k p ih =>
    cases hw with
    | value =>
      rw [completeNode_value] at h
      cases h
    | children hs hp hne =>
      rw [completeNode_cons] at h
      obtain ⟨hpruned, hbelow⟩ := ih ((Pruned.children hs hp hne).child k) h (below f [k])
      rw [subtree_cons]
      refine ⟨hpruned, ?_⟩
      rw [below_below] at hbelow
      refine Eq.trans ?_ hbelow
      funext q
      exact layer_cons ..

/-- Somewhere a write that is not empty is complete. -/
lemma exists_complete (hw : Pruned scmp (Written cmp) w) (hne : w.isEmpty = false) :
    ∃ q, w.hasCompleteWriteAtPath cmp scmp q := by
  induction hw with
  | value => exact ⟨[], by rw [hasCompleteWriteAtPath, completeNode_value]; rfl⟩
  | @children cs hs hp hcne ih =>
    obtain ⟨⟨k, c⟩, he⟩ : ∃ e, e ∈ cs := by
      refine List.exists_mem_of_ne_nil cs fun h => ?_
      rw [h] at hne
      cases hne
    obtain ⟨q, hq⟩ := ih (k, c) he (hcne _ he)
    refine ⟨k :: q, ?_⟩
    rw [hasCompleteWriteAtPath, completeNode_cons, (find_eq_some_iff hs).mpr he]
    exact hq

/-- Nothing is complete at a path, above it or below it. -/
lemma layer_of_incomplete (hw : Pruned scmp (Written cmp) w)
    (h : ∀ q, w.hasCompleteWriteAtPath cmp scmp (p ++ q) = false) (f : Leaves K V) :
    layer cmp scmp w f p = f p := by
  have hnone : w.completeNodeAtPath cmp scmp p = none := by
    simpa [hasCompleteWriteAtPath] using h []
  obtain ⟨hpruned, hbelow⟩ := below_layer_of_incomplete hw hnone f
  have hempty : (w.subtreeAtPath scmp p).isEmpty = true := by
    by_contra hne
    obtain ⟨q, hq⟩ := exists_complete hpruned (by simpa using hne)
    have hq' := h q
    rw [hasCompleteWriteAtPath, complete_subtree hnone] at hq
    rw [hasCompleteWriteAtPath, hq] at hq'
    cases hq'
  have hat := congrFun hbelow []
  rw [FImmutableTree.eq_empty hempty, layer_empty] at hat
  simpa [Overwrite.below] using hat

/-- Something is complete below a path, and nothing above. -/
lemma layer_of_complete_below (hw : Pruned scmp (Written cmp) w)
    (h : w.hasCompleteWriteAtPath cmp scmp p = false)
    (hq : w.hasCompleteWriteAtPath cmp scmp (p ++ q) = true) (f : Leaves K V) :
    layer cmp scmp w f p = none := by
  have hnone : w.completeNodeAtPath cmp scmp p = none := by
    simpa [hasCompleteWriteAtPath] using h
  obtain ⟨-, hbelow⟩ := below_layer_of_incomplete hw hnone f
  have hat := congrFun hbelow []
  have hself := complete_subtree hnone []
  rw [hasCompleteWriteAtPath, ← complete_subtree hnone] at hq
  rw [List.append_nil, hnone] at hself
  generalize w.subtreeAtPath scmp p = t at *
  obtain ⟨v, cs⟩ := t
  cases v with
  | some v =>
    rw [completeNode_value] at hself
    cases hself
  | none =>
    cases cs with
    | nil =>
      have hempty : completeNodeAtPath cmp scmp (FImmutableTree.empty : FCompoundWrite K V) q =
          none := completeNode_empty q
      rw [FImmutableTree.empty] at hempty
      rw [hempty] at hq
      cases hq
    | cons e cs => simpa [Overwrite.below, layer] using hat

end shown

/-! ### A write is removed -/

/-- No write is above a path. -/
def Free (cmp scmp : K → K → Ordering) (w : FCompoundWrite K V) (p : List K) : Prop :=
  ∀ q, q <+: p → q ≠ p → w.hasCompleteWriteAtPath cmp scmp q = false

lemma Free.cons {cs : List (K × FCompoundWrite K V)} {k : K}
    (h : Free cmp scmp (.node none cs) (k :: p)) :
    Free cmp scmp ((find scmp k cs).getD empty) p := by
  intro q hq hne
  have hcons := h (k :: q) (by simpa [List.cons_prefix_cons] using hq) (by simpa using hne)
  rwa [hasCompleteWriteAtPath, completeNode_cons] at hcons

section removed

variable [DecidableEq K]

/-- The child for a key, once a part of the tree is replaced. -/
lemma child_setTree [Std.TransCmp scmp] [Std.LawfulEqCmp scmp] {P : FNode K V → Prop}
    {cs : List (K × FCompoundWrite K V)} (hw : Pruned scmp P (.node none cs))
    (c : FCompoundWrite K V) (k k' : K) :
    (find scmp k' (if c.isEmpty then erase scmp k cs
      else SortedList.insert scmp k c cs)).getD empty =
      if k' = k then c else (find scmp k' cs).getD empty := by
  cases hw with
  | children hs hp hne =>
    split
    · rename_i hc
      rw [find_erase hs, FImmutableTree.eq_empty hc]
      split <;> rfl
    · rw [find_insert]
      split <;> rfl

variable [Std.TransCmp scmp] [Std.LawfulEqCmp scmp]

omit [DecidableEq K] [Std.TransCmp scmp] [Std.LawfulEqCmp scmp] in
lemma removeWrite_eq (w : FCompoundWrite K V) (p : List K) :
    removeWriteAtPath scmp w p = w.setTree scmp empty p := by
  cases p <;> cases w <;> rfl

/-- **A write that is removed**, with nothing above it, leaves the others as they were. -/
theorem removed (hw : Pruned scmp (Written cmp) w) (hfree : Free cmp scmp w p) :
    Pruned scmp (Written cmp) (removeWriteAtPath scmp w p) ∧
      (∀ q, (removeWriteAtPath scmp w p).hasCompleteWriteAtPath cmp scmp q ↔
        w.hasCompleteWriteAtPath cmp scmp q ∧ ¬ p <+: q) ∧
      ∀ f q, Apart p q →
        layer cmp scmp (removeWriteAtPath scmp w p) f q = layer cmp scmp w f q := by
  rw [removeWrite_eq]
  induction p generalizing w with
  | nil =>
    obtain ⟨v, cs⟩ := w
    refine ⟨pruned_empty, fun q => ?_, fun f q h => absurd (List.nil_prefix) h.1⟩
    simp [setTree, hasCompleteWriteAtPath, completeNode_empty]
  | cons k p ih =>
    cases hw with
    | value =>
      have hnil := hfree [] (by simp) (by simp)
      rw [hasCompleteWriteAtPath, completeNode_value] at hnil
      cases hnil
    | @children cs hs hp hne =>
      have hnode : Pruned scmp (Written cmp) (.node none cs) := .children hs hp hne
      obtain ⟨hpruned, hcomplete, hlayer⟩ := ih (hnode.child k) hfree.cons
      have hchild := child_setTree hnode
        (((find scmp k cs).getD empty).setTree scmp empty p) k
      simp only [setTree]
      generalize ((find scmp k cs).getD empty).setTree scmp empty p = c at *
      refine ⟨?_, fun q => ?_, fun f q h => ?_⟩
      · split
        · exact hnode.erase k
        · rename_i hc
          exact hnode.insert hpruned (by simpa using hc) k
      · cases q with
        | nil => simp [hasCompleteWriteAtPath, completeNode_nil]
        | cons k' q =>
          simp only [hasCompleteWriteAtPath, completeNode_cons, hchild] at hcomplete ⊢
          by_cases hk : k' = k
          · subst hk
            rw [if_pos rfl, hcomplete]
            simp [List.cons_prefix_cons]
          · rw [if_neg hk]
            simp [List.cons_prefix_cons, Ne.symm hk]
      · cases q with
        | nil => exact absurd List.nil_prefix h.2
        | cons k' q =>
          rw [layer_cons, layer_cons, hchild]
          by_cases hk : k' = k
          · subst hk
            rw [if_pos rfl]
            exact hlayer _ q ⟨fun hpre => h.1 (by simpa [List.cons_prefix_cons] using hpre),
              fun hpre => h.2 (by simpa [List.cons_prefix_cons] using hpre)⟩
          · rw [if_neg hk]

end removed

end FCompoundWrite

end Solta
