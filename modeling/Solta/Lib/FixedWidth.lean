import Mathlib.Algebra.Group.Nat.Defs
import Mathlib.Data.List.Lex
import Mathlib.Tactic.Common

/-!
Rows of fixed width.

A column renders the numbers below its bound, all in one width and in their order. A row of
numbers is rendered column by column. Two rendered rows compare symbol by symbol as the rows
compare number by number, which makes a rendered row a key to sort by.
-/

namespace Lib

variable {β : Type*}

/-- What comes after two lists of one length does not matter when they differ. -/
lemma lex_append {r : β → β → Prop} {as bs : List β} (hlen : as.length = bs.length)
    (h : List.Lex r as bs) (cs ds : List β) : List.Lex r (as ++ cs) (bs ++ ds) := by
  induction h with
  | nil => simp at hlen
  | cons _ ih => exact .cons (ih (by simpa using hlen))
  | rel hab => exact .rel hab

variable [LT β]

/-- The numbers below `bound`, in one width and in their order. -/
structure Column (β : Type*) [LT β] where
  render : ℕ → List β
  bound : ℕ
  width : ℕ
  length_render : ∀ n < bound, (render n).length = width
  lex_render : ∀ m n, m < n → n < bound → List.Lex (· < ·) (render m) (render n)

/-! ### Positional numerals -/

/-- The last `w` digits of `n` to the base `b`. -/
def positional (digit : ℕ → β) (b : ℕ) : ℕ → ℕ → List β
  | 0, _ => []
  | w + 1, n => positional digit b w (n / b) ++ [digit (n % b)]

omit [LT β] in
@[simp] lemma length_positional (digit : ℕ → β) (b w n : ℕ) :
    (positional digit b w n).length = w := by
  induction w generalizing n with
  | zero => rfl
  | succ w ih => simp [positional, ih]

/-- Numerals of one width are in the order of their numbers. -/
lemma lex_positional {digit : ℕ → β} {b : ℕ} (hb : 0 < b)
    (hdigit : ∀ i j, i < j → j < b → digit i < digit j) {w m n : ℕ} (hmn : m < n)
    (hn : n < b ^ w) :
    List.Lex (· < ·) (positional digit b w m) (positional digit b w n) := by
  induction w generalizing m n with
  | zero =>
    have h0 : n = 0 := by simpa using hn
    omega
  | succ w ih =>
    unfold positional
    have hdiv : m / b ≤ n / b := Nat.div_le_div_right hmn.le
    rcases Nat.lt_or_eq_of_le hdiv with hlt | heq
    · have hbound : n / b < b ^ w := by
        rw [Nat.div_lt_iff_lt_mul hb, ← Nat.pow_succ]
        exact hn
      exact lex_append (by simp) (ih hlt hbound) _ _
    · have hmod : m % b < n % b := by
        have hm := Nat.div_add_mod m b
        have hn := Nat.div_add_mod n b
        rw [heq] at hm
        omega
      rw [heq]
      exact List.Lex.append_left _ (.rel (hdigit _ _ hmod (Nat.mod_lt n hb))) _

namespace Column

/-- Numerals of `w` digits. -/
def numeral (digit : ℕ → β) {b : ℕ} (hb : 0 < b)
    (hdigit : ∀ i j, i < j → j < b → digit i < digit j) (w : ℕ) : Column β where
  render := positional digit b w
  bound := b ^ w
  width := w
  length_render n _ := length_positional digit b w n
  lex_render _ _ hmn hn := lex_positional hb hdigit hmn hn

/-- A column with `sep` at its right. -/
def followedBy (c : Column β) (sep : List β) : Column β where
  render n := c.render n ++ sep
  bound := c.bound
  width := c.width + sep.length
  length_render n hn := by rw [List.length_append, c.length_render n hn]
  lex_render m n hmn hn := by
    have hm : m < c.bound := hmn.trans hn
    refine lex_append ?_ (c.lex_render m n hmn hn) _ _
    rw [c.length_render m hm, c.length_render n hn]

end Column

/-! ### Rows -/

/-- Every number is below the bound of its column. -/
def Fits (cs : List (Column β)) (ns : List ℕ) : Prop := List.Forall₂ (fun c n => n < c.bound) cs ns

def row (cs : List (Column β)) (ns : List ℕ) : List β :=
  (List.zipWith Column.render cs ns).flatten

/-- **Rows keep their order**: of two rows that fit the columns the smaller one is rendered
as the smaller list. -/
theorem lex_row {cs : List (Column β)} {ms ns : List ℕ} (hm : Fits cs ms) (hn : Fits cs ns)
    (h : List.Lex (· < ·) ms ns) : List.Lex (· < ·) (row cs ms) (row cs ns) := by
  induction cs generalizing ms ns with
  | nil =>
    cases hm
    cases hn
    cases h
  | cons c cs ih =>
    cases hm with
    | cons hm hms =>
    cases hn with
    | cons hn hns =>
    cases h with
    | cons h => exact List.Lex.append_left _ (ih hms hns h) _
    | rel hlt =>
      refine lex_append ?_ (c.lex_render _ _ hlt hn) _ _
      rw [c.length_render _ hm, c.length_render _ hn]

end Lib
