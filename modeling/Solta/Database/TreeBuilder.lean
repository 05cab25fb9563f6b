import Solta.Database.Llrb

/-!
The tree that is built from a whole list of entries.

The number of entries is written with the digits 1 and 2. Every digit gives one or two pennants,
which are a node with a complete tree on the right; each hangs on the left of the one before.
-/

namespace Solta.FTreeSortedDictionary

open Lib SortedList FLLRBNode

variable {K V : Type}

/-- A complete tree of the `length` entries from `startIndex` on. -/
def buildBalancedTree (es : List (K × V)) (startIndex length : ℕ) : FLLRBNode K V :=
  let bounded := Nat.min (es.length - startIndex) length
  if bounded = 0 then empty
  else if bounded = 1 then
    match es[startIndex]? with
    | none => empty
    | some e => value e.1 e.2 BLACK empty empty
  else
    let middle := bounded / 2
    let left := buildBalancedTree es startIndex middle
    let right := buildBalancedTree es (startIndex + middle + 1) middle
    match es[startIndex + middle]? with
    | none => empty
    | some e => value e.1 e.2 BLACK left right
termination_by length
decreasing_by
  all_goals
    have hle : bounded ≤ length := Nat.min_le_right _ _
    omega

/-- The pennant of the `chunkSize` entries before `index`, with `left` as its left child. -/
def buildPennant (es : List (K × V)) (color : Bool) (index chunkSize : ℕ)
    (left : FLLRBNode K V) : FLLRBNode K V :=
  match es[index - chunkSize]? with
  | none => empty
  | some e =>
    value e.1 e.2 color left (buildBalancedTree es (index - chunkSize + 1) (chunkSize - 1))

/-- A bit 0 is the digit 1, a bit 1 the digit 2. -/
def rootFrom12List (es : List (K × V)) (bits : ℕ) : ℕ → ℕ → FLLRBNode K V
  | 0, _ => empty
  | current + 1, index =>
    let chunkSize := 2 ^ current
    if !bits.testBit current then
      buildPennant es BLACK index chunkSize (rootFrom12List es bits current (index - chunkSize))
    else
      buildPennant es BLACK index chunkSize
        (buildPennant es RED (index - chunkSize) chunkSize
          (rootFrom12List es bits current (index - chunkSize - chunkSize)))

/-- The root for sorted entries. -/
def buildRoot (es : List (K × V)) : FLLRBNode K V :=
  let count := Nat.log2 (es.length + 1)
  rootFrom12List es ((es.length + 1) % 2 ^ count) count es.length

/-! ### What is built -/

@[simp] lemma buildBalancedTree_zero (es : List (K × V)) (startIndex : ℕ) :
    buildBalancedTree es startIndex 0 = empty := by
  rw [buildBalancedTree]
  simp

/-- One entry is the middle of an empty tree on either side. -/
lemma buildBalancedTree_eq {es : List (K × V)} {startIndex length : ℕ} (hpos : 0 < length)
    (hle : startIndex + length ≤ es.length) {e : K × V}
    (he : es[startIndex + length / 2]? = some e) :
    buildBalancedTree es startIndex length =
      value e.1 e.2 BLACK (buildBalancedTree es startIndex (length / 2))
        (buildBalancedTree es (startIndex + length / 2 + 1) (length / 2)) := by
  have hbounded : Nat.min (es.length - startIndex) length = length :=
    Nat.min_eq_right (by omega)
  rw [buildBalancedTree]
  simp only [hbounded]
  rw [if_neg (by omega)]
  split
  · rename_i hone
    subst hone
    have he' : es[startIndex]? = some e := he
    simp [he']
  · rw [he]

lemma take_drop_middle (es : List (K × V)) {i n : ℕ} {e : K × V} (he : es[i + n]? = some e)
    (m : ℕ) : (es.drop i).take n ++ e :: (es.drop (i + n + 1)).take m =
      (es.drop i).take (n + 1 + m) := by
  rw [List.take_add, List.take_add_one, List.getElem?_drop, he, List.drop_drop]
  simp [Nat.add_assoc]

lemma buildBalancedTree_spec (es : List (K × V)) (m startIndex : ℕ)
    (h : startIndex + (2 ^ m - 1) ≤ es.length) :
    (buildBalancedTree es startIndex (2 ^ m - 1)).inorderTraversal =
        (es.drop startIndex).take (2 ^ m - 1) ∧
      (buildBalancedTree es startIndex (2 ^ m - 1)).check = some m ∧
      (buildBalancedTree es startIndex (2 ^ m - 1)).isRed = false := by
  induction m generalizing startIndex with
  | zero => simp [inorderTraversal, check]
  | succ m ih =>
    have hpos : 0 < 2 ^ m := Nat.two_pow_pos m
    have hpow : 2 ^ (m + 1) = 2 * 2 ^ m := by rw [pow_succ, Nat.mul_comm]
    have hmiddle : (2 ^ (m + 1) - 1) / 2 = 2 ^ m - 1 := by omega
    obtain ⟨hl, hlcheck, hlred⟩ := ih startIndex (by omega)
    obtain ⟨hr, hrcheck, hrred⟩ := ih (startIndex + (2 ^ m - 1) + 1) (by omega)
    obtain ⟨e, he⟩ : ∃ e, es[startIndex + (2 ^ m - 1)]? = some e :=
      ⟨_, List.getElem?_eq_getElem (by omega)⟩
    rw [buildBalancedTree_eq (by omega) h (by rwa [hmiddle]), hmiddle]
    refine ⟨?_, check_value.mpr ⟨m, hlcheck, hrcheck, by simp, hrred, rfl⟩, rfl⟩
    rw [inorderTraversal, hl, hr, take_drop_middle es he]
    congr 1
    omega

/-- **One pennant** on top of what comes before it. -/
lemma buildPennant_spec {es : List (K × V)} {index i : ℕ} (hle : index ≤ es.length)
    (hchunk : 2 ^ i ≤ index) (color : Bool) {left : FLLRBNode K V}
    (hleft : left.inorderTraversal = es.take (index - 2 ^ i)) (hcheck : left.check = some i)
    (hred : color = true → left.isRed = false) :
    (buildPennant es color index (2 ^ i) left).inorderTraversal = es.take index ∧
      (buildPennant es color index (2 ^ i) left).check =
        some (i + if color then 0 else 1) ∧
      (buildPennant es color index (2 ^ i) left).isRed = color := by
  have hpos : 0 < 2 ^ i := Nat.two_pow_pos i
  obtain ⟨e, he⟩ : ∃ e, es[index - 2 ^ i]? = some e :=
    ⟨_, List.getElem?_eq_getElem (by omega)⟩
  obtain ⟨hr, hrcheck, hrred⟩ := buildBalancedTree_spec es i (index - 2 ^ i + 1) (by omega)
  unfold buildPennant
  rw [he]
  refine ⟨?_, check_value.mpr ⟨i, hcheck, hrcheck, hred, hrred, rfl⟩, rfl⟩
  have hmiddle := take_drop_middle es (i := 0) (n := index - 2 ^ i) (by simpa using he) (2 ^ i - 1)
  rw [Nat.zero_add, List.drop_zero] at hmiddle
  rw [inorderTraversal, hleft, hr, hmiddle]
  congr 1
  omega

/-- **All pennants**: `current` digits cover the entries before `index`. -/
lemma rootFrom12List_spec (es : List (K × V)) (bits current : ℕ) {index : ℕ}
    (hle : index ≤ es.length) (hindex : index = 2 ^ current - 1 + bits % 2 ^ current) :
    (rootFrom12List es bits current index).inorderTraversal = es.take index ∧
      (rootFrom12List es bits current index).check = some current ∧
      (rootFrom12List es bits current index).isRed = false := by
  induction current generalizing index with
  | zero =>
    obtain rfl : index = 0 := by omega
    simp [rootFrom12List, inorderTraversal, check]
  | succ i ih =>
    have hpos : 0 < 2 ^ i := Nat.two_pow_pos i
    have hpow : 2 ^ (i + 1) = 2 * 2 ^ i := by rw [pow_succ, Nat.mul_comm]
    have hmod : bits % 2 ^ (i + 1) = bits % 2 ^ i + 2 ^ i * (bits.testBit i).toNat := by
      rw [pow_succ, Nat.mod_mul, Nat.toNat_testBit]
    unfold rootFrom12List
    dsimp only
    cases hbit : bits.testBit i
    · rw [hbit, Bool.toNat_false] at hmod
      obtain ⟨hin, hcheck, -⟩ := @ih (index - 2 ^ i) (by omega) (by omega)
      exact buildPennant_spec hle (by omega) BLACK hin hcheck (by simp)
    · rw [hbit, Bool.toNat_true] at hmod
      obtain ⟨hin, hcheck, hred⟩ := @ih (index - 2 ^ i - 2 ^ i) (by omega) (by omega)
      obtain ⟨hin', hcheck', -⟩ := buildPennant_spec (by omega : index - 2 ^ i ≤ es.length)
        (by omega) RED hin hcheck fun _ => hred
      exact buildPennant_spec hle (by omega) BLACK hin' hcheck' (by simp)

/-- **The tree of a list** holds its entries in their order and is balanced. -/
theorem buildRoot_spec (es : List (K × V)) :
    (buildRoot es).inorderTraversal = es ∧ (buildRoot es).Balanced := by
  have hlow : 2 ^ Nat.log2 (es.length + 1) ≤ es.length + 1 := Nat.log2_self_le (by omega)
  have hhigh : es.length + 1 < 2 ^ (Nat.log2 (es.length + 1) + 1) := Nat.lt_log2_self
  have hpow : 2 ^ (Nat.log2 (es.length + 1) + 1) = 2 * 2 ^ Nat.log2 (es.length + 1) := by
    rw [pow_succ, Nat.mul_comm]
  have hmod : (es.length + 1) % 2 ^ Nat.log2 (es.length + 1) =
      es.length + 1 - 2 ^ Nat.log2 (es.length + 1) := by
    rw [Nat.mod_eq_sub_mod hlow, Nat.mod_eq_of_lt (by omega)]
  obtain ⟨hin, hcheck, hred⟩ :=
    rootFrom12List_spec es ((es.length + 1) % 2 ^ Nat.log2 (es.length + 1))
    (Nat.log2 (es.length + 1)) (le_refl es.length) (by rw [Nat.mod_mod]; omega)
  refine ⟨?_, hred, _, hcheck⟩
  unfold buildRoot
  rw [hin, List.take_length]

end Solta.FTreeSortedDictionary
