import Mathlib.Algebra.Order.Floor.Ring
import Mathlib.Algebra.Ring.Int.Parity
import Mathlib.Data.Int.Log
import Mathlib.Data.Nat.Prime.Basic
import Mathlib.Tactic.FieldSimp
import Mathlib.Tactic.Linarith
import Mathlib.Tactic.Ring

/-!
Rounding to a number of significant binary digits.

A number of `p` digits is an integer of at most `p` digits times a power of two; the exponents
have no bounds here. Rounding goes to the nearest such number, and to the even one of two
that are equally near.
-/

namespace Lib.Rounding

variable {K : Type*} [Field K] [LinearOrder K] [IsStrictOrderedRing K] [FloorRing K]

/-- The nearest integer, the even one of two. -/
def roundEven (x : K) : ℤ :=
  if x - ⌊x⌋ < 1 / 2 then ⌊x⌋
  else if 1 / 2 < x - ⌊x⌋ then ⌊x⌋ + 1
  else if Even ⌊x⌋ then ⌊x⌋ else ⌊x⌋ + 1

/-- The worth of the last of `p` digits. -/
def ulp (p : ℕ) (x : K) : K := 2 ^ (Int.log 2 |x| + 1 - p)

/-- The nearest number of `p` digits. -/
def round (p : ℕ) (x : K) : K := roundEven (x / ulp p x) * ulp p x

def Representable (p : ℕ) (x : K) : Prop := ∃ m e : ℤ, |m| < 2 ^ p ∧ x = m * 2 ^ e

/-! ### The nearest integer -/

lemma abs_roundEven_sub_le (x : K) : |(roundEven x : K) - x| ≤ 1 / 2 := by
  have hlo := Int.floor_le x
  have hhi := Int.lt_floor_add_one x
  unfold roundEven
  split_ifs <;> push_cast <;> rw [abs_le] <;> constructor <;> linarith

@[simp] lemma roundEven_intCast (n : ℤ) : roundEven (n : K) = n := by
  simp [roundEven]

omit [IsStrictOrderedRing K] in
lemma roundEven_nonneg {x : K} (h : 0 ≤ x) : 0 ≤ roundEven x := by
  have hfloor : 0 ≤ ⌊x⌋ := Int.floor_nonneg.mpr h
  unfold roundEven
  split_ifs <;> omega

/-- Rounding does not pass an integer. -/
lemma abs_roundEven_le {x : K} {n : ℤ} (h : |x| ≤ n) : |roundEven x| ≤ n := by
  have hle := abs_roundEven_sub_le x
  have hsum := abs_add_le ((roundEven x : K) - x) x
  rw [sub_add_cancel] at hsum
  have hlt : |(roundEven x : K)| < n + 1 := by linarith
  have hint : |roundEven x| < n + 1 := by exact_mod_cast hlt
  omega

/-! ### The last digit -/

variable {p : ℕ} {x : K}

lemma ulp_pos (p : ℕ) (x : K) : 0 < ulp p x := zpow_pos (by norm_num) _

omit [IsStrictOrderedRing K] in
lemma ulp_mul_pow (p : ℕ) (x : K) : ulp p x * 2 ^ p = 2 ^ (Int.log 2 |x| + 1) := by
  unfold ulp
  rw [← zpow_natCast, ← zpow_add₀ (by norm_num), sub_add_cancel]

lemma abs_lt_ulp_mul (p : ℕ) (x : K) : |x| < ulp p x * 2 ^ p := by
  rw [ulp_mul_pow]
  exact_mod_cast Int.lt_zpow_succ_log_self (b := 2) (by norm_num) |x|

lemma ulp_mul_le (p : ℕ) (hx : x ≠ 0) : ulp p x * 2 ^ p ≤ 2 * |x| := by
  have hlog : (2 : K) ^ Int.log 2 |x| ≤ |x| := by
    exact_mod_cast Int.zpow_log_le_self (b := 2) (by norm_num) (abs_pos.mpr hx)
  rw [ulp_mul_pow, zpow_add_one₀ (by norm_num)]
  linarith

/-! ### Rounding -/

@[simp] lemma round_zero (p : ℕ) : round p (0 : K) = 0 := by
  simp [round, roundEven]

/-- **The relative error** of rounding to `p` digits. -/
theorem abs_round_sub_le (p : ℕ) (x : K) : |round p x - x| ≤ |x| / 2 ^ p := by
  by_cases hx : x = 0
  · simp [hx]
  have hu := ulp_pos p x
  have hround : round p x - x = ((roundEven (x / ulp p x) : K) - x / ulp p x) * ulp p x := by
    unfold round
    field_simp
  rw [hround, abs_mul, abs_of_pos hu, le_div_iff₀ (by positivity)]
  have herr := abs_roundEven_sub_le (x / ulp p x)
  calc |(roundEven (x / ulp p x) : K) - x / ulp p x| * ulp p x * 2 ^ p
      ≤ 1 / 2 * (ulp p x * 2 ^ p) := by
        rw [mul_assoc]
        exact mul_le_mul_of_nonneg_right herr (by positivity)
    _ ≤ |x| := by linarith [ulp_mul_le p hx]

lemma round_nonneg (p : ℕ) (h : 0 ≤ x) : 0 ≤ round p x := by
  have hu := ulp_pos p x
  have hint : (0 : K) ≤ roundEven (x / ulp p x) := by
    exact_mod_cast roundEven_nonneg (div_nonneg h hu.le)
  exact mul_nonneg hint hu.le

lemma round_le (p : ℕ) (h : 0 ≤ x) : round p x ≤ x * (1 + 1 / 2 ^ p) := by
  have herr := (abs_le.mp (abs_round_sub_le p x)).2
  rw [abs_of_nonneg h, div_eq_mul_one_div] at herr
  linarith

/-- What has been rounded has `p` digits. -/
theorem representable_round (hp : 0 < p) (x : K) : Representable p (round p x) := by
  have hu := ulp_pos p x
  have hle : |x / ulp p x| ≤ ((2 ^ p : ℤ) : K) := by
    rw [abs_div, abs_of_pos hu, div_le_iff₀ hu]
    push_cast
    linarith [abs_lt_ulp_mul p x]
  rcases (abs_roundEven_le hle).lt_or_eq with hlt | heq
  · exact ⟨_, _, hlt, rfl⟩
  · -- the number has carried to the next power of two
    obtain h | h := abs_choice (roundEven (x / ulp p x)) <;> rw [h] at heq
    · refine ⟨1, Int.log 2 |x| + 1, by simpa using one_lt_pow₀ one_lt_two hp.ne', ?_⟩
      rw [round, heq, ← ulp_mul_pow p x]
      push_cast
      ring
    · refine ⟨-1, Int.log 2 |x| + 1, by simpa using one_lt_pow₀ one_lt_two hp.ne', ?_⟩
      rw [round, ← neg_eq_iff_eq_neg.mpr heq.symm, ← ulp_mul_pow p x]
      push_cast
      ring

/-- A number of `p` digits stays as it is. -/
theorem round_of_representable (h : Representable p x) : round p x = x := by
  obtain ⟨m, e, hm, rfl⟩ := h
  by_cases hzero : m = 0
  · simp [hzero]
  set x : K := m * 2 ^ e
  have hne : x ≠ 0 := mul_ne_zero (by exact_mod_cast hzero) (zpow_ne_zero _ (by norm_num))
  have habs : |x| < ((2 : ℕ) : K) ^ ((p : ℤ) + e) := by
    have hcast : (|m| : K) < 2 ^ p := by exact_mod_cast hm
    have hpos : (0 : K) < 2 ^ e := zpow_pos (by norm_num) _
    rw [abs_mul, abs_of_pos hpos, Nat.cast_ofNat, zpow_add₀ (by norm_num), zpow_natCast]
    exact mul_lt_mul_of_pos_right hcast hpos
  have hlog := (Int.lt_zpow_iff_log_lt (by norm_num) (abs_pos.mpr hne)).mp habs
  -- the last digit divides the exponent of the number
  obtain ⟨k, hk⟩ := Int.eq_ofNat_of_zero_le (a := e - (Int.log 2 |x| + 1 - p)) (by omega)
  have hdiv : x / ulp p x = ((m * 2 ^ k : ℤ) : K) := by
    rw [div_eq_iff (ulp_pos p x).ne', ulp]
    push_cast
    rw [mul_assoc, ← zpow_natCast, ← zpow_add₀ (by norm_num), ← hk, sub_add_cancel]
  rw [round, hdiv, roundEven_intCast, ← hdiv, div_mul_cancel₀ _ (ulp_pos p x).ne']

lemma round_eq_self_iff (hp : 0 < p) : round p x = x ↔ Representable p x :=
  ⟨fun h => h ▸ representable_round hp x, round_of_representable⟩

/-! ### Numbers of `p` digits -/

omit [LinearOrder K] [IsStrictOrderedRing K] [FloorRing K] in
lemma Representable.mono {q : ℕ} (h : Representable p x) (hpq : p ≤ q) : Representable q x := by
  obtain ⟨m, e, hm, hx⟩ := h
  exact ⟨m, e, hm.trans_le (pow_le_pow_right₀ one_le_two hpq), hx⟩

omit [LinearOrder K] [IsStrictOrderedRing K] [FloorRing K] in
lemma representable_zero (p : ℕ) : Representable p (0 : K) := ⟨0, 0, by simp, by simp⟩

/-- For a natural number the exponent may be taken natural. -/
lemma representable_natCast_iff {n : ℕ} :
    Representable p (n : K) ↔ ∃ m e : ℕ, m < 2 ^ p ∧ n = m * 2 ^ e := by
  constructor
  · rintro ⟨m, e, hm, hn⟩
    have hpos : (0 : K) < 2 ^ e := zpow_pos (by norm_num) _
    have hm0 : 0 ≤ m := by
      have hmul : (0 : K) ≤ m * 2 ^ e := hn ▸ Nat.cast_nonneg n
      exact_mod_cast nonneg_of_mul_nonneg_left hmul hpos
    lift m to ℕ using hm0
    have hlt : m < 2 ^ p := by
      rw [Nat.abs_cast] at hm
      exact_mod_cast hm
    obtain ⟨k, rfl | rfl⟩ := e.eq_nat_or_neg
    · exact ⟨m, k, hlt, by exact_mod_cast hn⟩
    · -- a negative exponent makes the number smaller
      have hmul : n * 2 ^ k = m := by
        have hcast : (n : K) * 2 ^ k = m := by
          rw [hn, zpow_neg, zpow_natCast]
          field_simp
          simp
        exact_mod_cast hcast
      have hle : n ≤ m := hmul ▸ Nat.le_mul_of_pos_right n (by positivity)
      exact ⟨n, 0, hle.trans_lt hlt, by simp⟩
  · rintro ⟨m, e, hm, rfl⟩
    exact ⟨m, e, by rw [Nat.abs_cast]; exact_mod_cast hm, by push_cast; rw [zpow_natCast]⟩

/-- A factor of a product needs no more digits than the product. -/
lemma exists_of_mul_eq {n t m e : ℕ} (ht : 0 < t) (h : n * t = m * 2 ^ e) :
    ∃ m' e', m' ≤ m ∧ n = m' * 2 ^ e' := by
  induction e generalizing n t with
  | zero =>
    rw [pow_zero, mul_one] at h
    exact ⟨n, 0, h ▸ Nat.le_mul_of_pos_right n ht, by simp⟩
  | succ e ih =>
    have hhalf : ∀ k, 2 * k = m * 2 ^ (e + 1) → k = m * 2 ^ e := by
      intro k hk
      rw [pow_succ] at hk
      linarith
    have htwo : 2 ∣ n * t := ⟨m * 2 ^ e, by rw [h, pow_succ]; ring⟩
    rcases Nat.prime_two.dvd_mul.mp htwo with ⟨n, rfl⟩ | ⟨t, rfl⟩
    · obtain ⟨m', e', hm, rfl⟩ := ih ht (hhalf (n * t) (by rw [← h, mul_assoc]))
      exact ⟨m', e' + 1, hm, by rw [pow_succ]; ring⟩
    · exact ih (by omega) (hhalf (n * t) (by rw [← h, mul_left_comm]))

lemma Representable.of_mul {n t : ℕ} (ht : 0 < t) (h : Representable p ((n * t : ℕ) : K)) :
    Representable p (n : K) := by
  obtain ⟨m, e, hm, hmul⟩ := representable_natCast_iff.mp h
  obtain ⟨m', e', hle, hn⟩ := exists_of_mul_eq ht hmul
  exact representable_natCast_iff.mpr ⟨m', e', hle.trans_lt hm, hn⟩

end Lib.Rounding
