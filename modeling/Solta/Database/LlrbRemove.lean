import Solta.Database.Llrb

/-!
Removal from the balanced trees.

`remove` goes down along red links, which it makes on its way where there are none. A node that
has one at the top is tight; gone right from, it may lean to the right for one step. Below a
tight node the black depth stays, and a black node stays black. A black root without a red
link is no tight node, but all that `remove` does commutes with the color of the root.
-/

namespace Solta.FLLRBNode

open Lib SortedList

variable {K V : Type} {cmp : K → K → Ordering}

/-- A balanced node with a red link at the top, where something may be taken out. -/
structure Tight (n : FLLRBNode K V) (h : ℕ) : Prop where
  check : n.check = some h
  red : n.isRed = true ∨ n.left.isRed = true

/-- A black node whose red link is on the right. -/
def Leaning (n : FLLRBNode K V) (k : K) (h : ℕ) : Prop :=
  ∃ v l r b, n = value k v BLACK l r ∧ l.check = some b ∧ r.check = some b ∧
    l.isRed = false ∧ r.isRed = true ∧ h = b + 1

/-- The entry at the root. -/
def root : FLLRBNode K V → Option (K × V)
  | empty => none
  | value k v _ _ _ => some (k, v)

lemma Tight.readyLeft {n : FLLRBNode K V} {h : ℕ} (hn : Tight n h) (hne : n.left.isEmpty = false) :
    ∃ k v c l r b, n.readyLeft = value k v c l r ∧ Tight l b ∧ r.check = some b ∧
      Loose c l r h ∧ n.isRed = (c || (l.isRed && r.isRed)) ∧
      ∀ e ∈ n.root, e = (k, v) ∨ e ∈ l.inorderTraversal := by
  obtain ⟨hcheck, hred⟩ := hn
  cases n with
  | empty => cases hne
  | value k v c l r =>
    obtain ⟨b, hl, hr, hlc, hrred, rfl⟩ := check_value.mp hcheck
    simp only [left_value, isRed_value] at hne hred
    by_cases hready : l.isRed = true ∨ l.left.isRed = true
    · refine ⟨k, v, c, l, r, b, ?_, ⟨hl, hready⟩, hr, ⟨⟨b, hl, hr, rfl⟩, fun hc => ⟨hlc hc, hrred⟩⟩,
        by simp [hrred], by simp [root]⟩
      unfold FLLRBNode.readyLeft
      rcases hready with hready | hready <;> simp [hready]
    · obtain ⟨hlred, hllred⟩ := not_or.mp hready
      rw [Bool.not_eq_true] at hlred hllred
      obtain rfl : c = true := by simpa [hlred] using hred
      obtain ⟨lk, lv, ll, lr, d, rfl, hll, hlr, hlrred, rfl⟩ := check_black hl hlred hne
      have hrne : r.isEmpty = false := by
        cases r with
        | empty => simp [FLLRBNode.check] at hr
        | value => rfl
      obtain ⟨rk, rv, rl, rr, e, rfl, hrl, hrr, hrrred, he⟩ := check_black hr hrred hrne
      obtain rfl : d = e := by omega
      have hl' : (value lk lv RED ll lr).check = some d :=
        check_value.mpr ⟨d, hll, hlr, fun _ => hllred, hlrred, rfl⟩
      cases hrlred : rl.isRed
      · have hr' : (value rk rv RED rl rr).check = some d :=
          check_value.mpr ⟨d, hrl, hrr, fun _ => hrlred, hrrred, rfl⟩
        refine ⟨k, v, BLACK, value lk lv RED ll lr, value rk rv RED rl rr, d, ?_, ⟨hl', .inl rfl⟩,
          hr', ⟨⟨d, hl', hr', rfl⟩, by simp⟩, rfl, by simp [root]⟩
        simp only [left_value] at hllred
        simp [FLLRBNode.readyLeft, hllred, moveRedLeft, hrlred]
      · obtain ⟨sk, sv, sl, sr, rfl, hsl, hsr, hslred, hsrred⟩ := check_red hrl hrlred
        have hl'' : (value k v BLACK (value lk lv RED ll lr) sl).check = some (d + 1) :=
          check_value.mpr ⟨d, hl', hsl, by simp, hslred, rfl⟩
        have hr'' : (value rk rv BLACK sr rr).check = some (d + 1) :=
          check_value.mpr ⟨d, hsr, hrr, by simp, hrrred, rfl⟩
        refine ⟨sk, sv, RED, value k v BLACK (value lk lv RED ll lr) sl, value rk rv BLACK sr rr,
          d + 1, ?_, ⟨hl'', .inr rfl⟩, hr'', ⟨⟨d + 1, hl'', hr'', rfl⟩, by simp⟩, rfl,
          by simp [root, inorderTraversal]⟩
        simp only [left_value] at hllred
        simp [FLLRBNode.readyLeft, hllred, moveRedLeft]

/-- What is taken out of the left link may leave it red only if it was. -/
lemma Loose.left {c : Bool} {l l' r : FLLRBNode K V} {h b : ℕ} (hl : Loose c l r h)
    (hb : l.check = some b) (hb' : l'.check = some b) (hred : l'.isRed = true → l.isRed = true) :
    Loose c l' r h := by
  obtain ⟨⟨d, hd, hr, rfl⟩, hlinks⟩ := hl
  obtain rfl : b = d := Option.some.inj (hb.symm.trans hd)
  refine ⟨⟨b, hb', hr, rfl⟩, fun hc => ⟨?_, (hlinks hc).2⟩⟩
  have := (hlinks hc).1
  cases h' : l'.isRed
  · rfl
  · simp [hred h'] at this

/-- A leaf is all there is below a node without a left link. -/
lemma Tight.eq_leaf {n : FLLRBNode K V} {h : ℕ} (hn : Tight n h) (he : n.left.isEmpty = true) :
    ∃ k v, n = value k v RED empty empty ∧ h = 0 := by
  obtain ⟨hcheck, hred⟩ := hn
  cases n with
  | empty => simp at hred
  | value k v c l r =>
    cases l with
    | value => simp at he
    | empty =>
      obtain rfl : c = true := by simpa using hred
      obtain ⟨b, hl, hr, -, hrred, rfl⟩ := check_value.mp hcheck
      obtain rfl : h = 0 := by simpa [FLLRBNode.check, eq_comm] using hl
      cases hre : r.isEmpty
      · obtain ⟨_, _, _, _, _, _, _, _, _, h⟩ := check_black hr hrred hre
        omega
      · obtain rfl : r = empty := by
          cases r with
          | empty => rfl
          | value => simp at hre
        exact ⟨k, v, rfl, rfl⟩

lemma inorder_readyLeft (n : FLLRBNode K V) :
    n.readyLeft.inorderTraversal = n.inorderTraversal := by
  unfold FLLRBNode.readyLeft
  split
  · unfold moveRedLeft
    dsimp only
    split
    · rename_i h
      rw [inorder_colorFlip, ← inorder_colorFlip n]
      have hright : n.colorFlip.right.isEmpty = false := by
        cases hr : n.colorFlip.right with
        | empty => rw [hr] at h; cases h
        | value => rfl
      rcases hm : n.colorFlip with _ | ⟨k, v, c, l, r⟩
      · rfl
      · rw [hm] at h hright
        have hrl := isEmpty_of_isRed h
        have hr : r.rotateRight.isEmpty = false := by
          rcases r with _ | ⟨rk, rv, rc, _ | ⟨rlk, rlv, rlc, rll, rlr⟩, rr⟩ <;> simp at hrl ⊢
        rw [inorder_rotateLeft (by simpa using hr)]
        simp only [right_value, withRight_value, inorderTraversal] at hrl ⊢
        rw [inorder_rotateRight hrl]
    · exact inorder_colorFlip n
  · rfl

lemma removeMin_eq {n : FLLRBNode K V} (h : n.left.isEmpty = false) {k v c l r}
    (hr : n.readyLeft = value k v c l r) : n.removeMin = (value k v c l.removeMin r).fixUp := by
  rw [removeMin, if_neg (by simp [h])]
  split
  · rename_i h'
    rw [hr] at h'
    cases h'
  · rename_i h'
    rw [hr] at h'
    cases h'
    rfl

/-- **Taking out the smallest entry** keeps the balance. -/
lemma Tight.removeMin {n : FLLRBNode K V} {h : ℕ} (hn : Tight n h) :
    n.removeMin.check = some h ∧ (n.removeMin.isRed = true → n.isRed = true) ∧
      n.removeMin.inorderTraversal = n.inorderTraversal.tail := by
  induction hm : n.count using Nat.strong_induction_on generalizing n h with
  | _ m ih =>
    cases he : n.left.isEmpty
    · obtain ⟨k, v, c, l, r, b, hready, hl, hr, hloose, hred, -⟩ := hn.readyLeft he
      obtain ⟨hcheck, hred', horder⟩ :=
        ih l.count (hm ▸ count_left_lt (count_readyLeft_le n) hready) hl rfl
      obtain ⟨hfix, hfixred⟩ := (hloose.left hl.check hcheck hred').fixUp k v
      rw [removeMin_eq he hready]
      refine ⟨hfix, fun h => ?_, ?_⟩
      · rw [hfixred] at h
        rw [hred]
        revert h hred'
        cases c <;> cases l.isRed <;> simp
        intro h; simp [h]
      · have hne : l.inorderTraversal ≠ [] := by
          intro hnil
          have := hl.red
          cases l with
          | empty => simp at this
          | value => simp [inorderTraversal] at hnil
        rw [inorder_fixUp, ← inorder_readyLeft n, hready, inorderTraversal, inorderTraversal,
          horder,
          List.tail_append_of_ne_nil hne]
    · obtain ⟨k, v, rfl, rfl⟩ := hn.eq_leaf he
      have hmin : (value k v RED empty empty).removeMin = empty := by
        rw [FLLRBNode.removeMin]
        rfl
      rw [hmin]
      exact ⟨rfl, by simp, rfl⟩

lemma inorder_readyRight (n : FLLRBNode K V) :
    n.readyRight.inorderTraversal = n.inorderTraversal := by
  have hmove : ∀ m : FLLRBNode K V, m.moveRedRight.inorderTraversal = m.inorderTraversal := by
    intro m
    unfold moveRedRight
    dsimp only
    split
    · rename_i h
      have hleft : m.colorFlip.left.isEmpty = false := by
        cases hl : m.colorFlip.left with
        | empty => rw [hl] at h; cases h
        | value => rfl
      rw [inorder_colorFlip, inorder_rotateRight hleft, inorder_colorFlip]
    · exact inorder_colorFlip m
  have hrotate : (if n.left.isRed then n.rotateRight else n).inorderTraversal =
      n.inorderTraversal := by
    split
    · rename_i h
      exact inorder_rotateRight (isEmpty_of_isRed h)
    · rfl
  unfold FLLRBNode.readyRight
  rw [← hrotate]
  generalize (if n.left.isRed then n.rotateRight else n) = m
  dsimp only
  split
  · exact hmove m
  · rfl

/-- The two shapes in which a node can be gone right from. -/
lemma readyRight_spec {k v c} {l r : FLLRBNode K V} {h : ℕ}
    (hn : Tight (value k v c l r) h ∨ Leaning (value k v c l r) k h) :
    ∃ k' v' c' l' r' b, (value k v c l r).readyRight = value k' v' c' l' r' ∧
      l'.check = some b ∧ h = b + (if c' then 0 else 1) ∧
      (c' = true → l'.isRed = false ∧ r'.isRed = false) ∧
      ((c' || (l'.isRed && r'.isRed)) = true → c = true) ∧
      ((k' = k ∧ v' = v) ∨ (k, v) ∈ r'.inorderTraversal) ∧
      ((l' = empty ∧ r' = empty ∧ b = 0 ∧ c' = true) ∨ Tight r' b ∨ Leaning r' k b) := by
  rcases hn with ⟨hcheck, hred⟩ | ⟨v', l', r', b, heq, hl, hr, hlred, hrred, rfl⟩
  · obtain ⟨b, hl, hr, hlc, hrred, rfl⟩ := check_value.mp hcheck
    simp only [left_value, isRed_value] at hred
    cases hlred : l.isRed
    · obtain rfl : c = true := by simpa [hlred] using hred
      by_cases hready : r.isEmpty = true ∨ r.left.isRed = true
      · refine ⟨k, v, true, l, r, b, ?_, hl, rfl, fun _ => ⟨hlred, hrred⟩, by simp, .inl ⟨rfl, rfl⟩,
          ?_⟩
        · simp only [FLLRBNode.readyRight, left_value, hlred]
          rcases hready with hready | hready <;> simp [hready]
        · rcases hready with hready | hready
          · obtain rfl := eq_empty hready
            obtain rfl : b = 0 := by simpa [FLLRBNode.check, eq_comm] using hr
            exact .inl ⟨eq_empty_of_check hl hlred, rfl, rfl, rfl⟩
          · exact .inr (.inl ⟨hr, .inr hready⟩)
      · obtain ⟨hrne, hrlred⟩ := not_or.mp hready
        rw [Bool.not_eq_true] at hrne hrlred
        obtain ⟨rk, rv, rl, rr, d, rfl, hrl, hrr, hrrred, rfl⟩ := check_black hr hrred hrne
        have hlne : l.isEmpty = false := by
          cases l with
          | empty => simp [FLLRBNode.check] at hl
          | value => rfl
        obtain ⟨lk, lv, ll, lr, e, rfl, hll, hlr, hlrred, he⟩ := check_black hl hlred hlne
        obtain rfl : d = e := by omega
        have hr' : (value rk rv RED rl rr).check = some d :=
          check_value.mpr ⟨d, hrl, hrr, fun _ => hrlred, hrrred, rfl⟩
        simp only [left_value] at hrlred
        cases hllred : ll.isRed
        · have hl' : (value lk lv RED ll lr).check = some d :=
            check_value.mpr ⟨d, hll, hlr, fun _ => hllred, hlrred, rfl⟩
          refine ⟨k, v, BLACK, value lk lv RED ll lr, value rk rv RED rl rr, d, ?_, hl', rfl,
            by simp, by simp, .inl ⟨rfl, rfl⟩, .inr (.inl ⟨hr', .inl rfl⟩)⟩
          simp [FLLRBNode.readyRight, hrlred, moveRedRight, hllred]
        · obtain ⟨sk, sv, sl, sr, rfl, hsl, hsr, hslred, hsrred⟩ := check_red hll hllred
          have hl' : (value sk sv BLACK sl sr).check = some (d + 1) :=
            check_value.mpr ⟨d, hsl, hsr, by simp, hsrred, rfl⟩
          refine ⟨lk, lv, RED, value sk sv BLACK sl sr, value k v BLACK lr (value rk rv RED rl rr),
            d + 1, ?_, hl', rfl, by simp, by simp, .inr (by simp [inorderTraversal]),
            .inr (.inr ⟨v, lr, _, d, rfl, hlr, hr', hlrred, rfl, rfl⟩)⟩
          simp [FLLRBNode.readyRight, hrlred, moveRedRight]
    · -- a red left link is turned to the right
      obtain ⟨lk, lv, ll, lr, rfl, hll, hlr, hllred, hlrred⟩ := check_red hl hlred
      obtain rfl : c = false := by simpa using hlc
      have hr' : (value k v RED lr r).check = some b :=
        check_value.mpr ⟨b, hlr, hr, fun _ => hlrred, hrred, rfl⟩
      refine ⟨lk, lv, BLACK, ll, value k v RED lr r, b, ?_, hll, rfl, by simp, by simp [hllred],
        .inr (by simp [inorderTraversal]), .inr (.inl ⟨hr', .inl rfl⟩)⟩
      simp [FLLRBNode.readyRight]
  · cases heq
    refine ⟨k, v, BLACK, l, r, b, ?_, hl, rfl, by simp, by simp [hlred], .inl ⟨rfl, rfl⟩,
      .inr (.inl ⟨hr, .inl hrred⟩)⟩
    simp [FLLRBNode.readyRight, hlred, hrred]

/-! ### The color of the root -/

/-- The other color at the root. -/
def toggle (n : FLLRBNode K V) : FLLRBNode K V := n.withColor (!n.isRed)

@[simp] lemma toggle_value (k : K) (v : V) (c : Bool) (l r : FLLRBNode K V) :
    (value k v c l r).toggle = value k v (!c) l r := rfl

@[simp] lemma left_toggle (n : FLLRBNode K V) : n.toggle.left = n.left := by cases n <;> rfl

@[simp] lemma right_toggle (n : FLLRBNode K V) : n.toggle.right = n.right := by cases n <;> rfl

@[simp] lemma isEmpty_toggle (n : FLLRBNode K V) : n.toggle.isEmpty = n.isEmpty := by
  cases n <;> rfl

@[simp] lemma toggle_toggle (n : FLLRBNode K V) : n.toggle.toggle = n := by
  cases n <;> simp [toggle]

@[simp] lemma withColor_toggle (n : FLLRBNode K V) (c : Bool) :
    n.toggle.withColor c = n.withColor c := by
  cases n <;> rfl

@[simp] lemma inorder_toggle (n : FLLRBNode K V) :
    n.toggle.inorderTraversal = n.inorderTraversal := inorder_withColor ..

lemma isRed_toggle {n : FLLRBNode K V} (h : n.isEmpty = false) : n.toggle.isRed = !n.isRed := by
  cases n with
  | empty => cases h
  | value => rfl

lemma toggle_ite (p : Prop) [Decidable p] (n m : FLLRBNode K V) :
    (if p then n else m).toggle = if p then n.toggle else m.toggle := apply_ite ..

lemma rotateLeft_toggle (n : FLLRBNode K V) : n.toggle.rotateLeft = n.rotateLeft.toggle := by
  rcases n with _ | ⟨k, v, c, l, _ | r⟩ <;> rfl

lemma rotateRight_toggle (n : FLLRBNode K V) : n.toggle.rotateRight = n.rotateRight.toggle := by
  rcases n with _ | ⟨k, v, c, _ | l, r⟩ <;> rfl

lemma colorFlip_toggle (n : FLLRBNode K V) : n.toggle.colorFlip = n.colorFlip.toggle := by
  cases n <;> rfl

lemma fixUp_toggle (n : FLLRBNode K V) : n.toggle.fixUp = n.fixUp.toggle := by
  simp only [fixUp, right_toggle, left_toggle, rotateLeft_toggle, ← toggle_ite,
    rotateRight_toggle, colorFlip_toggle]

lemma withRight_toggle (n m : FLLRBNode K V) : n.toggle.withRight m = (n.withRight m).toggle := by
  cases n <;> rfl

lemma readyLeft_toggle (n : FLLRBNode K V) : n.toggle.readyLeft = n.readyLeft.toggle := by
  simp only [readyLeft, moveRedLeft, left_toggle, right_toggle, colorFlip_toggle, withRight_toggle,
    rotateLeft_toggle, ← toggle_ite]

lemma readyRight_toggle (n : FLLRBNode K V) : n.toggle.readyRight = n.readyRight.toggle := by
  simp only [readyRight, moveRedRight, left_toggle, right_toggle, colorFlip_toggle, 
    rotateRight_toggle, ← toggle_ite]

lemma remove_lt {aKey key : K} (h : cmp aKey key = .lt) (val : V) (color : Bool)
    (left right : FLLRBNode K V) :
    (value key val color left right).remove cmp aKey =
      match if left.isEmpty then value key val color left right
        else (value key val color left right).readyLeft with
      | empty => empty
      | value k v c l r => (value k v c (l.remove cmp aKey) r).fixUp := by
  rw [remove, if_pos h]
  split <;> rename_i h' <;> rw [h']

lemma remove_not_lt {aKey key : K} (h : cmp aKey key ≠ .lt) (val : V) (color : Bool)
    (left right : FLLRBNode K V) :
    (value key val color left right).remove cmp aKey =
      match (value key val color left right).readyRight with
      | empty => empty
      | value k v c l r =>
        if cmp aKey k = .eq then
          match r.min with
          | none => empty
          | some smallest => (value smallest.1 smallest.2 c l (r.removeMin.remove cmp aKey)).fixUp
        else (value k v c l (r.remove cmp aKey)).fixUp := by
  rw [remove, if_neg h]
  split
  · rename_i h'
    rw [h']
  · next k v c l r h' =>
    cases hmin : r.min <;> simp only [h', hmin]

@[simp] lemma remove_empty (aKey : K) : (empty : FLLRBNode K V).remove cmp aKey = empty := by
  rw [remove]

lemma remove_toggle (cmp : K → K → Ordering) (aKey : K) (n : FLLRBNode K V) :
    n.toggle.remove cmp aKey = (n.remove cmp aKey).toggle := by
  cases n with
  | empty => simp [toggle]
  | value key val color left right =>
    by_cases h : cmp aKey key = .lt
    · have hready : (if left.isEmpty then value key val (!color) left right
          else (value key val (!color) left right).readyLeft) =
            (if left.isEmpty then value key val color left right
              else (value key val color left right).readyLeft).toggle := by
        rw [toggle_ite, ← readyLeft_toggle]
        rfl
      rw [toggle_value, remove_lt h, remove_lt h, hready]
      cases if left.isEmpty then value key val color left right
          else (value key val color left right).readyLeft with
      | empty => rfl
      | value =>
        rw [toggle_value]
        dsimp only
        rw [← fixUp_toggle, toggle_value]
    · have hready := readyRight_toggle (value key val color left right)
      rw [toggle_value] at hready ⊢
      rw [remove_not_lt h, remove_not_lt h, hready]
      cases (value key val color left right).readyRight with
      | empty => rfl
      | value k v c l r =>
        rw [toggle_value]
        dsimp only
        rw [toggle_ite, ← fixUp_toggle, toggle_value]
        cases r.min with
        | none => rfl
        | some =>
          dsimp only
          rw [← fixUp_toggle, toggle_value]

/-- Going left, a tight node loses something only further down. -/
lemma Tight.remove_lt {n : FLLRBNode K V} {h : ℕ} (hn : Tight n h) {aKey : K}
    (hlt : ∀ e ∈ n.inorderTraversal, cmp aKey e.1 = .lt) :
    (n.remove cmp aKey).check = some h ∧ (n.remove cmp aKey).isRed = n.isRed ∧
      (n.remove cmp aKey).inorderTraversal = n.inorderTraversal := by
  induction hm : n.count using Nat.strong_induction_on generalizing n h with
  | _ m ih =>
    cases he : n.left.isEmpty
    · obtain ⟨k, v, c, l, r, b, hready, hl, hr, hloose, hred, -⟩ := hn.readyLeft he
      have horder : n.inorderTraversal = l.inorderTraversal ++ (k, v) :: r.inorderTraversal := by
        rw [← inorder_readyLeft n, hready, inorderTraversal]
      obtain ⟨hcheck, hred', horder'⟩ :=
        ih l.count (hm ▸ count_left_lt (count_readyLeft_le n) hready)
        hl (fun e he => hlt e (by simp [horder, he])) rfl
      obtain ⟨hfix, hfixred⟩ := (hloose.left hl.check hcheck (by simp [hred'])).fixUp k v
      have heq : n.remove cmp aKey = (value k v c (l.remove cmp aKey) r).fixUp := by
        cases n with
        | empty => cases he
        | value key val color left right =>
          rw [FLLRBNode.remove_lt (hlt (key, val) (by simp [inorderTraversal])),
            if_neg (by simpa using he), hready]
      rw [heq]
      refine ⟨hfix, ?_, ?_⟩
      · rw [hfixred, hred, hred']
      · rw [inorder_fixUp, inorderTraversal, horder', horder]
    · obtain ⟨k, v, rfl, rfl⟩ := hn.eq_leaf he
      have hk : cmp aKey k = .lt := hlt (k, v) (by simp [inorderTraversal])
      rw [FLLRBNode.remove_lt hk]
      simp [fixUp, FLLRBNode.check, inorderTraversal]

/-- A black node without a red link is tight once its root is turned red. -/
lemma tight_toggle {n : FLLRBNode K V} {h : ℕ} (hn : n.check = some h) (hne : n.isEmpty = false)
    (hred : ¬ (n.isRed = true ∨ n.left.isRed = true)) : ∃ b, Tight n.toggle b ∧ h = b + 1 := by
  obtain ⟨hred, hlred⟩ := not_or.mp hred
  rw [Bool.not_eq_true] at hred hlred
  obtain ⟨k, v, l, r, b, rfl, hl, hr, hrred, rfl⟩ := check_black hn hred hne
  exact ⟨b, ⟨check_value.mpr ⟨b, hl, hr, fun _ => hlred, hrred, rfl⟩, .inl rfl⟩, rfl⟩

lemma check_toggle {n : FLLRBNode K V} {b : ℕ} (hn : n.check = some b) (hred : n.isRed = true) :
    n.toggle.check = some (b + 1) := by
  obtain ⟨k, v, l, r, rfl, hl, hr, -, hrred⟩ := check_red hn hred
  exact check_value.mpr ⟨b, hl, hr, by simp, hrred, rfl⟩

/-- Any balanced node will do for a key below all its keys. -/
lemma remove_below {n : FLLRBNode K V} {h : ℕ} (hn : n.check = some h) {aKey : K}
    (hlt : ∀ e ∈ n.inorderTraversal, cmp aKey e.1 = .lt) :
    (n.remove cmp aKey).check = some h ∧ (n.remove cmp aKey).isRed = n.isRed ∧
      (n.remove cmp aKey).inorderTraversal = n.inorderTraversal := by
  by_cases hred : n.isRed = true ∨ n.left.isRed = true
  · exact Tight.remove_lt ⟨hn, hred⟩ hlt
  cases he : n.isEmpty
  · obtain ⟨b, htight, rfl⟩ := tight_toggle hn he hred
    have hblack : n.isRed = false := by simpa using (not_or.mp hred).1
    have hlt' : ∀ e ∈ n.toggle.inorderTraversal, cmp aKey e.1 = .lt := by rwa [inorder_toggle]
    obtain ⟨hcheck, hred', horder⟩ := htight.remove_lt hlt'
    have hback := remove_toggle cmp aKey n.toggle
    rw [toggle_toggle] at hback
    have htop : n.toggle.isRed = true := by rw [isRed_toggle he, hblack, Bool.not_false]
    rw [htop] at hred'
    rw [hback]
    refine ⟨check_toggle hcheck hred', ?_, ?_⟩
    · rw [isRed_toggle (isEmpty_of_isRed hred'), hred', hblack]
      rfl
    · rw [inorder_toggle, horder, inorder_toggle]
  · cases n with
    | empty => simp [hn]
    | value => cases he

/-- What taking a key out of a node gives. -/
structure Removed (cmp : K → K → Ordering) (aKey : K) (n m : FLLRBNode K V) (h : ℕ) : Prop where
  check : m.check = some h
  red : m.isRed = true → n.isRed = true
  entries : m.inorderTraversal = erase cmp aKey n.inorderTraversal

/-- What is taken out of the right link may leave it red only if it was. -/
lemma fixUp_right {c : Bool} {l r r' : FLLRBNode K V} {b : ℕ} (hl : l.check = some b)
    (hlinks : c = true → l.isRed = false ∧ r.isRed = false) (hr : r'.check = some b)
    (hred : r'.isRed = true → r.isRed = true) (k : K) (v : V) :
    (value k v c l r').fixUp.check = some (b + if c then 0 else 1) ∧
      ((value k v c l r').fixUp.isRed = true → (c || (l.isRed && r.isRed)) = true) := by
  have hloose : Loose c l r' (b + if c then 0 else 1) := by
    refine ⟨⟨b, hl, hr, rfl⟩, fun hc => ⟨(hlinks hc).1, ?_⟩⟩
    have := (hlinks hc).2
    cases h' : r'.isRed
    · rfl
    · simp [hred h'] at this
  obtain ⟨hfix, hfixred⟩ := hloose.fixUp k v
  refine ⟨hfix, fun h => ?_⟩
  rw [hfixred] at h
  rcases Bool.or_eq_true _ _ ▸ h with h | h
  · simp [h]
  · obtain ⟨hl, hr⟩ := Bool.and_eq_true _ _ ▸ h
    simp [hl, hred hr]

variable [Std.TransCmp cmp]

lemma Tight.remove_left {aKey : K} {n : FLLRBNode K V} {h : ℕ} (hn : Tight n h)
    (hsorted : Sorted cmp n.inorderTraversal) (hlt : ∀ e ∈ n.root, cmp aKey e.1 = .lt)
    (ih : ∀ {l : FLLRBNode K V} {b : ℕ}, l.count < n.count → Tight l b →
      Sorted cmp l.inorderTraversal → Removed cmp aKey l (l.remove cmp aKey) b) :
    Removed cmp aKey n (n.remove cmp aKey) h := by
  cases he : n.left.isEmpty
  · obtain ⟨k, v, c, l, r, b, hready, hl, hr, hloose, hred, hroot⟩ := hn.readyLeft he
    have horder : n.inorderTraversal = l.inorderTraversal ++ (k, v) :: r.inorderTraversal := by
      rw [← inorder_readyLeft n, hready, inorderTraversal]
    rw [horder] at hsorted
    obtain ⟨hsl, -, hlk, -, -⟩ := sorted_middle.mp hsorted
    obtain ⟨hcheck, hred', hentries⟩ := ih (count_left_lt (count_readyLeft_le n) hready) hl hsl
    obtain ⟨hfix, hfixred⟩ := (hloose.left hl.check hcheck hred').fixUp k v
    cases n with
    | empty => cases he
    | value key val color left right =>
      have hkey : cmp aKey key = .lt := hlt (key, val) rfl
      have hk : cmp aKey k = .lt := by
        rcases hroot (key, val) rfl with heq | hmem
        · cases heq
          exact hkey
        · exact Std.TransCmp.lt_trans hkey (hlk _ hmem)
      rw [FLLRBNode.remove_lt hkey, if_neg (by simpa using he), hready]
      refine ⟨hfix, fun h => ?_, ?_⟩
      · rw [hfixred] at h
        rw [hred]
        revert h hred'
        cases c <;> cases l.isRed <;> simp
        intro h; simp [h]
      · rw [inorder_fixUp, inorderTraversal, hentries, horder, erase_left hk]
  · obtain ⟨k, v, rfl, rfl⟩ := hn.eq_leaf he
    have hk : cmp aKey k = .lt := hlt (k, v) rfl
    rw [FLLRBNode.remove_lt hk]
    refine ⟨?_, by simp, ?_⟩
    · simp [FLLRBNode.fixUp, FLLRBNode.check]
    · simp [FLLRBNode.fixUp, inorderTraversal, erase, hk]

lemma remove_right {aKey key : K} {val : V} {color : Bool} {left right : FLLRBNode K V} {h : ℕ}
    (hn : Tight (value key val color left right) h ∨ Leaning (value key val color left right) key h)
    (hsorted : Sorted cmp (value key val color left right).inorderTraversal)
    (hkey : cmp aKey key ≠ .lt)
    (ih : ∀ {r : FLLRBNode K V} {b : ℕ}, r.count < (value key val color left right).count →
      (Tight r b ∨ ∃ k, Leaning r k b ∧ cmp aKey k ≠ .lt) → Sorted cmp r.inorderTraversal →
      Removed cmp aKey r (r.remove cmp aKey) b) :
    Removed cmp aKey (value key val color left right)
      ((value key val color left right).remove cmp aKey) h := by
  obtain ⟨k, v, c, l, r, b, hready, hl, rfl, hlinks, hred, hroot, hr⟩ := readyRight_spec hn
  have horder : (value key val color left right).inorderTraversal =
      l.inorderTraversal ++ (k, v) :: r.inorderTraversal := by
    rw [← inorder_readyRight, hready, inorderTraversal]
  rw [horder] at hsorted
  obtain ⟨-, hsr, hlk, hkr, -⟩ := sorted_middle.mp hsorted
  -- the root of the node has not moved to the left
  have hk : cmp aKey k ≠ .lt := by
    rcases hroot with ⟨rfl, rfl⟩ | hmem
    · exact hkey
    · simp [gt_of_not_lt hkey (hkr _ hmem)]
  have herase : erase cmp aKey (value key val color left right).inorderTraversal =
      l.inorderTraversal ++ erase cmp aKey ((k, v) :: r.inorderTraversal) := by
    rw [horder, erase_right fun f hf => gt_of_not_lt hk (hlk f hf)]
  have hmend : ∀ r' : FLLRBNode K V, r'.check = some b → (r'.isRed = true → r.isRed = true) →
      ∀ e : K × V, e :: r'.inorderTraversal = erase cmp aKey ((k, v) :: r.inorderTraversal) →
      Removed cmp aKey (value key val color left right) (value e.1 e.2 c l r').fixUp
        (b + if c then 0 else 1) := by
    intro r' hcheck hred' e hentries
    obtain ⟨hfix, hfixred⟩ := fixUp_right hl hlinks hcheck hred' e.1 e.2
    refine ⟨hfix, fun h => hred (hfixred h), ?_⟩
    rw [inorder_fixUp, inorderTraversal, herase, ← hentries]
  rw [remove_not_lt hkey, hready]
  dsimp only
  split
  · rename_i heq
    have htail : erase cmp aKey ((k, v) :: r.inorderTraversal) = r.inorderTraversal := by
      simp [erase, heq]
    rcases hr with ⟨rfl, rfl, rfl, rfl⟩ | hr | ⟨v', l', r', d, rfl, -⟩
    · refine ⟨rfl, by simp [FLLRBNode.min], ?_⟩
      rw [herase, htail]
      rfl
    · obtain ⟨hcheck, hred', hmin⟩ := hr.removeMin
      have hbelow : ∀ e ∈ r.removeMin.inorderTraversal, cmp aKey e.1 = .lt := by
        intro e he
        rw [hmin] at he
        exact Std.TransCmp.lt_of_eq_of_lt heq (hkr e (List.mem_of_mem_tail he))
      obtain ⟨hcheck', hred'', hsame⟩ := remove_below hcheck hbelow
      cases hs : r.min with
      | none =>
        have hred := hr.red
        cases r with
        | empty => simp at hred
        | value => simp [min_eq, inorderTraversal] at hs
      | some smallest =>
        rw [min_eq] at hs
        obtain ⟨es, hes⟩ := List.head?_eq_some_iff.mp hs
        refine hmend _ hcheck' (fun h => hred' (hred'' ▸ h)) smallest ?_
        rw [hsame, hmin, htail, hes, List.tail_cons]
    · -- the node itself is on the right, above its own key
      have hgt := gt_of_not_lt hkey (hkr (key, v') (by simp [inorderTraversal]))
      rw [heq] at hgt
      cases hgt
  · rename_i hne
    have hgt : cmp aKey k = .gt := by
      cases h : cmp aKey k <;> simp_all
    have htail : erase cmp aKey ((k, v) :: r.inorderTraversal) =
        (k, v) :: erase cmp aKey r.inorderTraversal := by
      simp [erase, hgt]
    have hcount := count_right_lt (count_readyRight_le _) hready
    rcases hr with ⟨rfl, rfl, rfl, rfl⟩ | hr | hr
    · refine hmend _ (by rw [remove_empty]; rfl) (by simp) (k, v) ?_
      rw [htail, remove_empty]
      rfl
    · obtain ⟨hcheck, hred', hentries⟩ := ih hcount (.inl hr) hsr
      exact hmend _ hcheck hred' (k, v) (by rw [htail, hentries])
    · obtain ⟨hcheck, hred', hentries⟩ := ih hcount (.inr ⟨key, hr, hkey⟩) hsr
      exact hmend _ hcheck hred' (k, v) (by rw [htail, hentries])

/-- **Taking a key out** of a tight node, or to the right of a leaning one. -/
theorem removed_remove {aKey : K} {n : FLLRBNode K V} {h : ℕ}
    (hn : Tight n h ∨ ∃ k, Leaning n k h ∧ cmp aKey k ≠ .lt)
    (hsorted : Sorted cmp n.inorderTraversal) :
    Removed cmp aKey n (n.remove cmp aKey) h := by
  induction hm : n.count using Nat.strong_induction_on generalizing n h with
  | _ m ih =>
    cases n with
    | empty =>
      rcases hn with ⟨-, hred⟩ | ⟨k, ⟨_, _, _, _, heq, -⟩, -⟩
      · simp at hred
      · cases heq
    | value key val color left right =>
      by_cases hlt : cmp aKey key = .lt
      · rcases hn with hn | ⟨k, ⟨_, _, _, _, heq, -⟩, hk⟩
        · exact hn.remove_left hsorted (by simp [root, hlt])
            fun hlt hl hsl => ih _ (hm ▸ hlt) (.inl hl) hsl rfl
        · cases heq
          exact absurd hlt hk
      · have hn' : Tight (value key val color left right) h ∨
            Leaning (value key val color left right) key h := by
          refine hn.imp_right ?_
          rintro ⟨k, hlean, -⟩
          obtain ⟨_, _, _, _, heq, _⟩ := id hlean
          cases heq
          exact hlean
        exact remove_right hn' hsorted hlt fun hlt hr hsr => ih _ (hm ▸ hlt) hr hsr rfl

/-! ### The whole tree -/

/-- **Taking a key out** of a whole tree and blackening its root. -/
theorem balanced_remove {n : FLLRBNode K V} (hn : Balanced n)
    (hsorted : Sorted cmp n.inorderTraversal) (aKey : K) :
    Balanced ((n.remove cmp aKey).withColor BLACK) ∧
      ((n.remove cmp aKey).withColor BLACK).inorderTraversal =
        erase cmp aKey n.inorderTraversal := by
  obtain ⟨hblack, h, hcheck⟩ := hn
  rw [inorder_withColor]
  cases he : n.isEmpty
  · by_cases hred : n.isRed = true ∨ n.left.isRed = true
    · have hremoved : Removed cmp aKey n (n.remove cmp aKey) h :=
        removed_remove (.inl ⟨hcheck, hred⟩) hsorted
      exact ⟨balanced_withColor hremoved.check, hremoved.entries⟩
    · obtain ⟨b, htight, -⟩ := tight_toggle hcheck he hred
      have hremoved : Removed cmp aKey n.toggle (n.toggle.remove cmp aKey) b :=
        removed_remove (.inl htight) (by rwa [inorder_toggle])
      have hback := remove_toggle cmp aKey n.toggle
      rw [toggle_toggle] at hback
      rw [hback, withColor_toggle, inorder_toggle]
      exact ⟨balanced_withColor hremoved.check, by rw [hremoved.entries, inorder_toggle]⟩
  · obtain rfl := eq_empty he
    simp [inorderTraversal, erase, Balanced, FLLRBNode.check]

end Solta.FLLRBNode
