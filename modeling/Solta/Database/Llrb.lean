import Mathlib.Order.Basic
import Mathlib.Tactic.Linarith
import Solta.Lib.SortedList

/-!
The balanced trees behind the children of a database node.

`FLLRBValueNode` and `FLLRBEmptyNode` are a left-leaning red-black tree. The tree throws when
`check` finds a red right child, two reds in a row or unequal black depths, and `remove` goes
on with a node whose root it has turned red or black as it needed.
-/

namespace Solta

/-- A link is red when its node's color is. -/
inductive FLLRBNode (K V : Type)
  | empty
  | value (key : K) (value : V) (color : Bool) (left right : FLLRBNode K V)

namespace FLLRBNode

open Lib SortedList

variable {K V : Type}

abbrev RED : Bool := true
abbrev BLACK : Bool := false

def isEmpty : FLLRBNode K V → Bool
  | empty => true
  | value .. => false

def isRed : FLLRBNode K V → Bool
  | empty => false
  | value _ _ color _ _ => color

/-- The children of an empty node are `nil`, which answers as an empty node does. -/
def left : FLLRBNode K V → FLLRBNode K V
  | empty => empty
  | value _ _ _ left _ => left

def right : FLLRBNode K V → FLLRBNode K V
  | empty => empty
  | value _ _ _ _ right => right

/-- `copyWith` a color alone. -/
def withColor : FLLRBNode K V → Bool → FLLRBNode K V
  | empty, _ => empty
  | value key val _ left right, color => value key val color left right

def withLeft : FLLRBNode K V → FLLRBNode K V → FLLRBNode K V
  | empty, _ => empty
  | value key val color _ right, left => value key val color left right

def withRight : FLLRBNode K V → FLLRBNode K V → FLLRBNode K V
  | empty, _ => empty
  | value key val color left _, right => value key val color left right

section simp

variable (k : K) (v : V) (c : Bool) (l r : FLLRBNode K V)

@[simp] lemma isEmpty_empty : (empty : FLLRBNode K V).isEmpty = true := rfl
@[simp] lemma isEmpty_value : (value k v c l r).isEmpty = false := rfl
@[simp] lemma isRed_empty : (empty : FLLRBNode K V).isRed = false := rfl
@[simp] lemma isRed_value : (value k v c l r).isRed = c := rfl
@[simp] lemma left_empty : (empty : FLLRBNode K V).left = empty := rfl
@[simp] lemma left_value : (value k v c l r).left = l := rfl
@[simp] lemma right_empty : (empty : FLLRBNode K V).right = empty := rfl
@[simp] lemma right_value : (value k v c l r).right = r := rfl
@[simp] lemma withColor_empty (b : Bool) : (empty : FLLRBNode K V).withColor b = empty := rfl
@[simp] lemma withColor_value (b : Bool) : (value k v c l r).withColor b = value k v b l r := rfl
@[simp] lemma withLeft_value (n : FLLRBNode K V) :
    (value k v c l r).withLeft n = value k v c n r := rfl
@[simp] lemma withRight_value (n : FLLRBNode K V) :
    (value k v c l r).withRight n = value k v c l n := rfl

end simp

def count : FLLRBNode K V → ℕ
  | empty => 0
  | value _ _ _ left right => left.count + 1 + right.count

/-- What `inorderTraversal` visits. -/
def inorderTraversal : FLLRBNode K V → List (K × V)
  | empty => []
  | value key val _ left right => left.inorderTraversal ++ (key, val) :: right.inorderTraversal

def reverseTraversal : FLLRBNode K V → List (K × V)
  | empty => []
  | value key val _ left right => right.reverseTraversal ++ (key, val) :: left.reverseTraversal

/-- The key and the value of `min`. -/
def min : FLLRBNode K V → Option (K × V)
  | empty => none
  | value key val _ left _ => if left.isEmpty then some (key, val) else left.min

def minKey (n : FLLRBNode K V) : Option K := n.min.map Prod.fst

def maxKey : FLLRBNode K V → Option K
  | empty => none
  | value key _ _ _ right => if right.isEmpty then some key else right.maxKey

/-! ### Rotations -/

def rotateLeft (n : FLLRBNode K V) : FLLRBNode K V :=
  let nl := (n.withColor RED).withRight n.right.left
  (n.right.withColor n.isRed).withLeft nl

def rotateRight (n : FLLRBNode K V) : FLLRBNode K V :=
  let nr := (n.withColor RED).withLeft n.left.right
  (n.left.withColor n.isRed).withRight nr

def colorFlip (n : FLLRBNode K V) : FLLRBNode K V :=
  let nleft := n.left.withColor (!n.left.isRed)
  let nright := n.right.withColor (!n.right.isRed)
  ((n.withColor (!n.isRed)).withLeft nleft).withRight nright

def fixUp (n : FLLRBNode K V) : FLLRBNode K V :=
  let n := if n.right.isRed && !n.left.isRed then n.rotateLeft else n
  let n := if n.left.isRed && n.left.left.isRed then n.rotateRight else n
  if n.left.isRed && n.right.isRed then n.colorFlip else n

def moveRedLeft (n : FLLRBNode K V) : FLLRBNode K V :=
  let n := n.colorFlip
  if n.right.left.isRed then ((n.withRight n.right.rotateRight).rotateLeft).colorFlip else n

def moveRedRight (n : FLLRBNode K V) : FLLRBNode K V :=
  let n := n.colorFlip
  if n.left.left.isRed then n.rotateRight.colorFlip else n

section simp

variable (k k' : K) (v v' : V) (c c' : Bool) (l r n : FLLRBNode K V)

@[simp] lemma rotateLeft_value : (value k v c n (value k' v' c' l r)).rotateLeft =
    value k' v' c (value k v RED n l) r := rfl
@[simp] lemma rotateRight_value : (value k v c (value k' v' c' l r) n).rotateRight =
    value k' v' c l (value k v RED r n) := rfl
@[simp] lemma colorFlip_value : (value k v c l r).colorFlip =
    value k v (!c) (l.withColor (!l.isRed)) (r.withColor (!r.isRed)) := rfl

end simp

lemma count_ite_le {n m : FLLRBNode K V} (h : m.count ≤ n.count) (b : Bool) :
    (if b then m else n).count ≤ n.count := by
  split
  · exact h
  · exact le_rfl

lemma count_rotateLeft_le (n : FLLRBNode K V) : n.rotateLeft.count ≤ n.count := by
  rcases n with _ | ⟨k, v, c, l, _ | ⟨rk, rv, rc, rl, rr⟩⟩ <;>
    simp [rotateLeft, withColor, withLeft, withRight, left, right, count]
  omega

lemma count_rotateRight_le (n : FLLRBNode K V) : n.rotateRight.count ≤ n.count := by
  rcases n with _ | ⟨k, v, c, _ | ⟨lk, lv, lc, ll, lr⟩, r⟩ <;>
    simp [rotateRight, withColor, withLeft, withRight, left, right, count]
  omega

lemma count_colorFlip (n : FLLRBNode K V) : n.colorFlip.count = n.count := by
  rcases n with _ | ⟨k, v, c, _ | l, _ | r⟩ <;> rfl

lemma count_withRight_le {n r : FLLRBNode K V} (h : r.count ≤ n.right.count) :
    (n.withRight r).count ≤ n.count := by
  cases n with
  | empty => simp [withRight]
  | value => simpa [withRight, count, right] using h

lemma count_moveRedLeft_le (n : FLLRBNode K V) : n.moveRedLeft.count ≤ n.count := by
  unfold moveRedLeft
  rw [← count_colorFlip n]
  refine count_ite_le ?_ _
  rw [count_colorFlip]
  exact (count_rotateLeft_le _).trans (count_withRight_le (count_rotateRight_le _))

lemma count_moveRedRight_le (n : FLLRBNode K V) : n.moveRedRight.count ≤ n.count := by
  unfold moveRedRight
  rw [← count_colorFlip n]
  refine count_ite_le ?_ _
  rw [count_colorFlip]
  exact count_rotateRight_le _

lemma count_fixUp_le (n : FLLRBNode K V) : n.fixUp.count ≤ n.count := by
  unfold fixUp
  refine (count_ite_le (count_colorFlip _).le _).trans ?_
  refine (count_ite_le (count_rotateRight_le _) _).trans ?_
  exact count_ite_le (count_rotateLeft_le n) _

/-! ### Insertion and removal -/

variable (cmp : K → K → Ordering)

def insertKey (aKey : K) (aValue : V) : FLLRBNode K V → FLLRBNode K V
  | empty => value aKey aValue RED empty empty
  | value key val color left right =>
    match cmp aKey key with
    | .lt => (value key val color (insertKey aKey aValue left) right).fixUp
    | .eq => (value key aValue color left right).fixUp
    | .gt => (value key val color left (insertKey aKey aValue right)).fixUp

/-- The node with a red link to go left along. -/
def readyLeft (n : FLLRBNode K V) : FLLRBNode K V :=
  if !n.left.isRed && !n.left.left.isRed then n.moveRedLeft else n

/-- The node with a red link to go right along. -/
def readyRight (n : FLLRBNode K V) : FLLRBNode K V :=
  let n := if n.left.isRed then n.rotateRight else n
  if !n.right.isEmpty && !n.right.isRed && !n.right.left.isRed then n.moveRedRight else n

lemma count_readyLeft_le (n : FLLRBNode K V) : n.readyLeft.count ≤ n.count :=
  count_ite_le (count_moveRedLeft_le n) _

lemma count_readyRight_le (n : FLLRBNode K V) : n.readyRight.count ≤ n.count :=
  (count_ite_le (count_moveRedRight_le _) _).trans (count_ite_le (count_rotateRight_le n) _)

lemma count_left_lt {n m : FLLRBNode K V} (hm : m.count ≤ n.count) {k v c l r}
    (h : m = value k v c l r) : l.count < n.count := by
  subst h
  rw [count] at hm
  omega

lemma count_right_lt {n m : FLLRBNode K V} (hm : m.count ≤ n.count) {k v c l r}
    (h : m = value k v c l r) : r.count < n.count := by
  subst h
  rw [count] at hm
  omega

def removeMin (n : FLLRBNode K V) : FLLRBNode K V :=
  if n.left.isEmpty then empty
  else
    match _h : n.readyLeft with
    | empty => empty
    | value key val color left right => (value key val color left.removeMin right).fixUp
termination_by n.count
decreasing_by exact count_left_lt (count_readyLeft_le n) _h

lemma count_removeMin_le (n : FLLRBNode K V) : n.removeMin.count ≤ n.count := by
  induction n using removeMin.induct with
  | case1 n h =>
    rw [removeMin, if_pos h]
    exact Nat.zero_le _
  | case2 n h hr =>
    rw [removeMin, if_neg h]
    split
    · exact Nat.zero_le _
    · rename_i h'
      rw [hr] at h'
      cases h'
  | case3 n h k v c l r hr ih =>
    rw [removeMin, if_neg h]
    split
    · exact Nat.zero_le _
    · rename_i h'
      rw [hr] at h'
      cases h'
      have hle := count_readyLeft_le n
      rw [hr, count] at hle
      refine (count_fixUp_le _).trans ?_
      rw [count]
      omega

/-- On the left the code asks for a red link only when there is something to go along to. -/
def remove (aKey : K) : FLLRBNode K V → FLLRBNode K V
  | empty => empty
  | value key val color left right =>
    let n := value key val color left right
    if cmp aKey key = .lt then
      match _h : if left.isEmpty then n else n.readyLeft with
      | empty => empty
      | value key val color left right => (value key val color (remove aKey left) right).fixUp
    else
      match _h : n.readyRight with
      | empty => empty
      | value key val color left right =>
        if cmp aKey key = .eq then
          match right.min with
          | none => empty
          | some smallest =>
            (value smallest.1 smallest.2 color left (remove aKey right.removeMin)).fixUp
        else (value key val color left (remove aKey right)).fixUp
termination_by n => n.count
decreasing_by
  · refine count_left_lt ?_ _h
    split
    · exact le_rfl
    · exact count_readyLeft_le _
  · exact lt_of_le_of_lt (count_removeMin_le _) (count_right_lt (count_readyRight_le _) _h)
  · exact count_right_lt (count_readyRight_le _) _h

/-- The black depth, `none` when the check throws. -/
def check : FLLRBNode K V → Option ℕ
  | empty => some 0
  | value _ _ color left right =>
    if color && left.isRed then none
    else if right.isRed then none
    else do
      let blackDepth ← left.check
      let rightDepth ← right.check
      if blackDepth ≠ rightDepth then none
      else some (blackDepth + if color then 0 else 1)

def checkMaxDepth (n : FLLRBNode K V) : Option Bool :=
  n.check.map fun blackDepth => 2 ^ blackDepth ≤ n.count + 1

/-! ### What rotations keep -/

variable {cmp}

@[simp] lemma inorder_withColor (n : FLLRBNode K V) (c : Bool) :
    (n.withColor c).inorderTraversal = n.inorderTraversal := by
  cases n <;> rfl

lemma inorder_rotateLeft {n : FLLRBNode K V} (h : n.right.isEmpty = false) :
    n.rotateLeft.inorderTraversal = n.inorderTraversal := by
  rcases n with _ | ⟨k, v, c, l, _ | ⟨rk, rv, rc, rl, rr⟩⟩ <;>
    simp_all [rotateLeft, withColor, withLeft, withRight, left, right, inorderTraversal, isEmpty]

lemma inorder_rotateRight {n : FLLRBNode K V} (h : n.left.isEmpty = false) :
    n.rotateRight.inorderTraversal = n.inorderTraversal := by
  rcases n with _ | ⟨k, v, c, _ | ⟨lk, lv, lc, ll, lr⟩, r⟩ <;>
    simp_all [rotateRight, withColor, withLeft, withRight, left, right, inorderTraversal, isEmpty]

@[simp] lemma inorder_colorFlip (n : FLLRBNode K V) :
    n.colorFlip.inorderTraversal = n.inorderTraversal := by
  rcases n with _ | ⟨k, v, c, _ | l, _ | r⟩ <;> rfl

lemma isEmpty_of_isRed {n : FLLRBNode K V} (h : n.isRed = true) : n.isEmpty = false := by
  cases n with
  | empty => cases h
  | value => rfl

lemma inorder_fixUp (n : FLLRBNode K V) : n.fixUp.inorderTraversal = n.inorderTraversal := by
  have hleft : ∀ m : FLLRBNode K V, (if m.right.isRed && !m.left.isRed then m.rotateLeft
      else m).inorderTraversal = m.inorderTraversal := by
    intro m
    split
    · rename_i h
      simp only [Bool.and_eq_true] at h
      exact inorder_rotateLeft (isEmpty_of_isRed h.1)
    · rfl
  have hright : ∀ m : FLLRBNode K V, (if m.left.isRed && m.left.left.isRed then m.rotateRight
      else m).inorderTraversal = m.inorderTraversal := by
    intro m
    split
    · rename_i h
      simp only [Bool.and_eq_true] at h
      exact inorder_rotateRight (isEmpty_of_isRed h.1)
    · rfl
  have hflip : ∀ m : FLLRBNode K V, (if m.left.isRed && m.right.isRed then m.colorFlip
      else m).inorderTraversal = m.inorderTraversal := by
    intro m
    split
    · exact inorder_colorFlip m
    · rfl
  unfold fixUp
  rw [hflip, hright, hleft]

lemma reverse_eq (n : FLLRBNode K V) : n.reverseTraversal = n.inorderTraversal.reverse := by
  induction n with
  | empty => rfl
  | value k v c l r ihl ihr => simp [reverseTraversal, inorderTraversal, ihl, ihr]

lemma min_eq (n : FLLRBNode K V) : n.min = n.inorderTraversal.head? := by
  induction n with
  | empty => rfl
  | value k v c l r ihl ihr =>
    cases l with
    | empty => rfl
    | value =>
      rw [min, isEmpty, if_neg (by simp), ihl]
      simp [inorderTraversal]

lemma maxKey_eq (n : FLLRBNode K V) : n.maxKey = n.inorderTraversal.getLast?.map Prod.fst := by
  induction n with
  | empty => rfl
  | value k v c l r ihl ihr =>
    cases r with
    | empty => simp [maxKey, isEmpty, inorderTraversal]
    | value =>
      rw [maxKey, isEmpty, if_neg (by simp), ihr]
      simp [inorderTraversal, List.getLast?_append, List.getLast?_cons]

lemma count_eq (n : FLLRBNode K V) : n.count = n.inorderTraversal.length := by
  induction n with
  | empty => rfl
  | value k v c l r ihl ihr =>
    simp [count, inorderTraversal, ihl, ihr]
    omega

/-! ### Balance -/

lemma check_value {k : K} {v : V} {c : Bool} {l r : FLLRBNode K V} {h : ℕ} :
    (value k v c l r).check = some h ↔ ∃ b, l.check = some b ∧ r.check = some b ∧
      (c = true → l.isRed = false) ∧ r.isRed = false ∧ h = b + if c then 0 else 1 := by
  rw [check]
  cases c <;> cases l.isRed <;> cases r.isRed <;> simp [Option.bind_eq_some_iff]
  all_goals grind

lemma check_red {n : FLLRBNode K V} {h : ℕ} (hn : n.check = some h) (hred : n.isRed = true) :
    ∃ k v l r, n = value k v RED l r ∧ l.check = some h ∧ r.check = some h ∧
      l.isRed = false ∧ r.isRed = false := by
  cases n with
  | empty => cases hred
  | value k v c l r =>
    obtain rfl : c = true := hred
    obtain ⟨b, hl, hr, hlred, hrred, rfl⟩ := check_value.mp hn
    exact ⟨k, v, l, r, rfl, hl, hr, hlred rfl, hrred⟩

lemma check_black {n : FLLRBNode K V} {h : ℕ} (hn : n.check = some h) (hred : n.isRed = false)
    (hne : n.isEmpty = false) :
    ∃ k v l r b, n = value k v BLACK l r ∧ l.check = some b ∧ r.check = some b ∧
      r.isRed = false ∧ h = b + 1 := by
  cases n with
  | empty => cases hne
  | value k v c l r =>
    obtain rfl : c = false := hred
    obtain ⟨b, hl, hr, -, hrred, rfl⟩ := check_value.mp hn
    exact ⟨k, v, l, r, b, rfl, hl, hr, hrred, rfl⟩

/-- A node whose own color and links are still to be mended by `fixUp`: black with any links, or
red with black ones. It ends up red when it is, or when both of its links are. -/
structure Loose (c : Bool) (l r : FLLRBNode K V) (h : ℕ) : Prop where
  depth : ∃ b, l.check = some b ∧ r.check = some b ∧ h = b + if c then 0 else 1
  links : c = true → l.isRed = false ∧ r.isRed = false

/-- **What `fixUp` mends.** -/
lemma Loose.fixUp {c : Bool} {l r : FLLRBNode K V} {h : ℕ} (hl : Loose c l r h) (k : K) (v : V) :
    (value k v c l r).fixUp.check = some h ∧
      (value k v c l r).fixUp.isRed = (c || (l.isRed && r.isRed)) := by
  obtain ⟨⟨b, hb, hb', rfl⟩, hlinks⟩ := hl
  cases hlred : l.isRed <;> cases hrred : r.isRed
  · have hfix : (value k v c l r).fixUp = value k v c l r := by
      simp [FLLRBNode.fixUp, hlred, hrred]
    rw [hfix, check_value]
    exact ⟨⟨b, hb, hb', fun _ => hlred, hrred, rfl⟩, by simp⟩
  · -- a red right link is turned to the left
    obtain ⟨rk, rv, rl, rr, rfl, hrl, hrr, hrlred, hrrred⟩ := check_red hb' hrred
    obtain rfl : c = false := by
      simpa using hlinks
    have hfix : (value k v false l (value rk rv RED rl rr)).fixUp =
        value rk rv false (value k v RED l rl) rr := by
      simp [FLLRBNode.fixUp, hlred, hrrred]
    rw [hfix, check_value]
    refine ⟨⟨b, check_value.mpr ⟨b, hb, hrl, fun _ => hlred, hrlred, rfl⟩, hrr, by simp, hrrred,
      rfl⟩, by simp⟩
  · obtain ⟨lk, lv, ll, lr, rfl, hll, hlr, hllred, hlrred⟩ := check_red hb hlred
    have hfix : (value k v c (value lk lv RED ll lr) r).fixUp = value k v c (value lk lv RED ll lr)
      r := by
      simp [FLLRBNode.fixUp, hrred, hllred]
    obtain rfl : c = false := by
      simpa using hlinks
    rw [hfix, check_value]
    exact ⟨⟨b, hb, hb', by simp, hrred, rfl⟩, by simp⟩
  · obtain ⟨lk, lv, ll, lr, rfl, hll, hlr, hllred, hlrred⟩ := check_red hb hlred
    obtain ⟨rk, rv, rl, rr, rfl, hrl, hrr, hrlred, hrrred⟩ := check_red hb' hrred
    obtain rfl : c = false := by
      simpa using hlinks
    have hfix : (value k v false (value lk lv RED ll lr) (value rk rv RED rl rr)).fixUp =
      value k v RED (value lk lv BLACK ll lr) (value rk rv BLACK rl rr) := by
      simp [FLLRBNode.fixUp, hllred]
    rw [hfix, check_value]
    refine ⟨⟨b+1, check_value.mpr ⟨b, hll, hlr, by simp, hlrred, rfl⟩,
      check_value.mpr ⟨b, hrl, hrr, by simp, hrrred, rfl⟩, by simp, rfl, rfl⟩, by simp⟩

/-- A red node whose left link may be red too. -/
def Almost (n : FLLRBNode K V) (h : ℕ) : Prop :=
  ∃ k v l r, n = value k v RED l r ∧ l.check = some h ∧ r.check = some h ∧ r.isRed = false

lemma almost_fixUp {l r : FLLRBNode K V} {h : ℕ} (hl : l.check = some h) (hr : r.check = some h)
    (hlr : l.isRed = false ∨ r.isRed = false) (k : K) (v : V) :
    Almost (value k v RED l r).fixUp h := by
  cases hrred : r.isRed
  · refine ⟨k, v, l, r, ?_, hl, hr, hrred⟩
    cases hlred : l.isRed
    · simp [FLLRBNode.fixUp, hlred, hrred]
    · obtain ⟨lk, lv, ll, lr, rfl, -, -, hllred, -⟩ := check_red hl hlred
      simp [FLLRBNode.fixUp, hrred, hllred]
  · obtain ⟨rk, rv, rl, rr, rfl, hrl, hrr, hrlred, hrrred⟩ := check_red hr hrred
    have hlred : l.isRed = false := by simpa using hlr
    refine ⟨rk, rv, value k v RED l rl, rr, ?_, ?_, hrr, hrrred⟩
    · simp [FLLRBNode.fixUp, hlred, hrrred]
    · exact check_value.mpr ⟨h, hl, hrl, fun _ => hlred, hrlred, rfl⟩

/-- Two reds in a row on the left are turned and flipped. -/
lemma check_fixUp_almost {l r : FLLRBNode K V} {h : ℕ} (hl : Almost l h) (hr : r.check = some h)
    (hrred : r.isRed = false) (k : K) (v : V) :
    (value k v BLACK l r).fixUp.check = some (h + 1) := by
  obtain ⟨lk, lv, ll, lr, rfl, hll, hlr, hlrred⟩ := hl
  cases hllred : ll.isRed
  · have hvalid : (value lk lv RED ll lr).check = some h :=
      check_value.mpr ⟨h, hll, hlr, fun _ => hllred, hlrred, rfl⟩
    exact (Loose.fixUp ⟨⟨h, hvalid, hr, rfl⟩, by simp⟩ k v).1
  · obtain ⟨k', v', l', r', rfl, hl', hr', -, hrred'⟩ := check_red hll hllred
    have hfix : (value k v BLACK (value lk lv RED (value k' v' RED l' r') lr) r).fixUp =
        value lk lv RED (value k' v' BLACK l' r') (value k v BLACK lr r) := by
      simp [FLLRBNode.fixUp, hrred]
    rw [hfix, check_value]
    refine ⟨h + 1, check_value.mpr ⟨h, hl', hr', by simp, hrred', rfl⟩,
      check_value.mpr ⟨h, hlr, hr, by simp, hrred, rfl⟩, by simp, rfl, rfl⟩

/-- **Insertion keeps the balance**: below a black node exactly, below a red one up to the
left link of the result. -/
lemma check_insertKey (aKey : K) (aValue : V) {n : FLLRBNode K V} {h : ℕ} (hn : n.check = some h) :
    (n.isRed = false → (n.insertKey cmp aKey aValue).check = some h) ∧
      (n.isRed = true → Almost (n.insertKey cmp aKey aValue) h) := by
  induction n generalizing h with
  | empty =>
    refine ⟨fun _ => ?_, by simp⟩
    obtain rfl : 0 = h := by simpa [check] using hn
    rfl
  | value k v c l r ihl ihr =>
    obtain ⟨b, hl, hr, hlred, hrred, rfl⟩ := check_value.mp hn
    obtain ⟨hl', hl''⟩ := ihl hl
    obtain ⟨hr', -⟩ := ihr hr
    unfold insertKey
    constructor
    · intro hc
      obtain rfl : c = false := hc
      split
      · cases hred : l.isRed
        · exact (Loose.fixUp ⟨⟨b, hl' hred, hr, rfl⟩, by simp⟩ k v).1
        · exact check_fixUp_almost (hl'' hred) hr hrred k v
      · exact (Loose.fixUp ⟨⟨b, hl, hr, rfl⟩, by simp⟩ k aValue).1
      · exact (Loose.fixUp ⟨⟨b, hl, hr' hrred, rfl⟩, by simp⟩ k v).1
    · intro hc
      obtain rfl : c = true := hc
      split
      · exact almost_fixUp (hl' (hlred rfl)) hr (.inr hrred) k v
      · exact almost_fixUp hl hr (.inr hrred) k aValue
      · exact almost_fixUp hl (hr' hrred) (.inl (hlred rfl)) k v

/-! ### The whole tree -/

/-- What the operations keep of a whole tree: it is balanced with a black root. -/
def Balanced (n : FLLRBNode K V) : Prop := n.isRed = false ∧ ∃ h, n.check = some h

lemma balanced_withColor {n : FLLRBNode K V} {h : ℕ} (hn : n.check = some h) :
    Balanced (n.withColor BLACK) := by
  cases n with
  | empty => exact ⟨rfl, 0, rfl⟩
  | value k v c l r =>
    obtain ⟨b, hl, hr, -, hrred, -⟩ := check_value.mp hn
    exact ⟨rfl, b + 1, check_value.mpr ⟨b, hl, hr, by simp, hrred, rfl⟩⟩

lemma eq_empty {n : FLLRBNode K V} (h : n.isEmpty = true) : n = empty := by
  cases n with
  | empty => rfl
  | value => cases h

lemma eq_empty_of_check {n : FLLRBNode K V} (h : n.check = some 0) (hred : n.isRed = false) :
    n = empty := by
  cases he : n.isEmpty
  · obtain ⟨_, _, _, _, b, -, -, -, -, hb⟩ := check_black h hred he
    omega
  · exact eq_empty he

/-- **Insertion** into a whole tree and blackening its root. -/
theorem balanced_insertKey {n : FLLRBNode K V} (hn : Balanced n) (aKey : K) (aValue : V) :
    Balanced ((n.insertKey cmp aKey aValue).withColor BLACK) := by
  obtain ⟨hblack, h, hcheck⟩ := hn
  exact balanced_withColor ((check_insertKey aKey aValue hcheck).1 hblack)

/-- **The depth**: a balanced tree is at most twice as deep as its black depth, which is at most
logarithmic in its size. -/
theorem two_pow_le_count {n : FLLRBNode K V} {h : ℕ} (hn : n.check = some h) :
    2 ^ h ≤ n.count + 1 := by
  induction n generalizing h with
  | empty =>
    obtain rfl : h = 0 := by simpa [check, eq_comm] using hn
    simp [count]
  | value k v c l r ihl ihr =>
    obtain ⟨b, hl, hr, -, -, rfl⟩ := check_value.mp hn
    have hl' := ihl hl
    have hr' := ihr hr
    rw [count]
    split
    · simp only [Nat.add_zero]
      omega
    · rw [pow_succ]
      omega

variable [Std.TransCmp cmp]

/-- **What insertion puts in**: a node that is there keeps its key, and an array takes the new
one. -/
theorem inorder_insertKey {n : FLLRBNode K V} (hn : Sorted cmp n.inorderTraversal) (aKey : K)
    (aValue : V) : (n.insertKey cmp aKey aValue).inorderTraversal =
      SortedList.insert cmp (standing cmp aKey n.inorderTraversal) aValue n.inorderTraversal := by
  induction n with
  | empty => rfl
  | value k v c l r ihl ihr =>
    obtain ⟨hl, hr, hlk, hkr, -⟩ := sorted_middle.mp hn
    unfold insertKey
    rw [inorderTraversal]
    split
    · rename_i hlt
      have hne : ∀ f ∈ (k, v) :: r.inorderTraversal, cmp aKey f.1 ≠ .eq := by
        intro f hf
        rcases List.mem_cons.mp hf with rfl | hf
        · simp [hlt]
        · simp [Std.TransCmp.lt_trans hlt (hkr f hf)]
      have htie : cmp aKey (standing cmp aKey l.inorderTraversal) = .eq := standing_tie aKey _
      have hlt' : cmp (standing cmp aKey l.inorderTraversal) k = .lt := by
        rwa [← Std.TransCmp.congr_left htie]
      rw [standing_append_left hne]
      rw [inorder_fixUp, inorderTraversal, ihl hl, SortedList.insert_left hlt']
    · rename_i heq
      have hgt : ∀ f ∈ l.inorderTraversal, cmp aKey f.1 = .gt :=
        fun f hf => gt_of_not_lt (by simp [heq]) (hlk f hf)
      have hstanding : standing cmp aKey (l.inorderTraversal ++ (k, v) :: r.inorderTraversal) =
          k := by
        rw [standing_append fun f hf => by simp [hgt f hf], standing, if_pos heq]
      have hgt' : ∀ f ∈ l.inorderTraversal, cmp k f.1 = .gt :=
        fun f hf => Std.OrientedCmp.gt_iff_lt.mpr (hlk f hf)
      have hself : cmp k k = .eq := Std.ReflCmp.compare_self
      rw [hstanding, inorder_fixUp, inorderTraversal, SortedList.insert_right hgt',
        SortedList.insert]
      simp [hself]
    · rename_i hgt
      have hall : ∀ f ∈ l.inorderTraversal, cmp aKey f.1 = .gt :=
        fun f hf => gt_of_not_lt (by simp [hgt]) (hlk f hf)
      rw [standing_append fun f hf => by simp [hall f hf], standing, if_neg (by simp [hgt])]
      have htie : cmp aKey (standing cmp aKey r.inorderTraversal) = .eq := standing_tie aKey _
      have hgt' : cmp (standing cmp aKey r.inorderTraversal) k = .gt := by
        rwa [← Std.TransCmp.congr_left htie]
      have hall' : ∀ f ∈ l.inorderTraversal,
          cmp (standing cmp aKey r.inorderTraversal) f.1 = .gt := by
        intro f hf
        rw [← Std.TransCmp.congr_left htie]
        exact hall f hf
      rw [inorder_fixUp, inorderTraversal, ihr hr, SortedList.insert_right hall',
        SortedList.insert]
      simp [hgt']

end FLLRBNode

end Solta
