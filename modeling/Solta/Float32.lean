import Mathlib.Data.Rat.Floor
import Solta.Lib.Rounding

/-!
The floating-point numbers of Swift and Objective-C.

A `Float32`, which is a `float`, has 24 significant digits and a `CGFloat` 53. The exponents are
in range.
-/

namespace Solta

open Lib.Rounding

/-- A number that a `Float` holds. -/
structure Float32 where
  value : ℚ
  representable : Representable 24 value
  deriving DecidableEq

namespace Float32

/-- `Float32(x)`. -/
def ofCGFloat (x : ℚ) : Float32 := ⟨round 24 x, representable_round (by norm_num) x⟩

instance (n : ℕ) : OfNat Float32 n := ⟨ofCGFloat n⟩

def mul (x y : Float32) : Float32 := ofCGFloat (x.value * y.value)

/-- `(NSUInteger)ceilf(x)`. -/
def ceilf (x : Float32) : ℕ := ⌈x.value⌉.toNat

/-- The cast of a number, which fails when no `Float` holds it. -/
def ofExactly (x : ℚ) : Option Float32 :=
  if h : round 24 x = x then some ⟨x, (round_eq_self_iff (by norm_num)).mp h⟩ else none

lemma ofExactly_eq_some {x : ℚ} {f : Float32} : ofExactly x = some f ↔ x = f.value := by
  unfold ofExactly
  constructor
  · intro h
    split at h
    · rw [← Option.some.inj h]
    · simp at h
  · rintro rfl
    rw [dif_pos (round_of_representable f.representable)]

/-- A part of a number, the number and the part rounded, is not more than the number. -/
lemma ceilf_mul_le {part : Float32} (h : part.value ∈ Set.Icc 0 (1 / 2)) (n : ℕ) :
    (mul (ofCGFloat n) part).ceilf ≤ n := by
  obtain ⟨hnonneg, hle⟩ := h
  have hn : (0 : ℚ) ≤ n := Nat.cast_nonneg n
  set x := round 24 (n : ℚ)
  have hx : 0 ≤ x := round_nonneg 24 hn
  have hmul : 0 ≤ x * part.value := mul_nonneg hx hnonneg
  have hround : round 24 (x * part.value) ≤ n :=
    calc round 24 (x * part.value)
        ≤ x * part.value * (1 + 1 / 2 ^ 24) := round_le 24 hmul
      _ ≤ n * (1 + 1 / 2 ^ 24) * (1 / 2) * (1 + 1 / 2 ^ 24) := by
        have hpart := mul_le_mul (round_le 24 hn) hle hnonneg (by positivity)
        exact mul_le_mul_of_nonneg_right hpart (by norm_num)
      _ ≤ n := by linarith
  exact Int.toNat_le.mpr (Int.ceil_le.mpr (by exact_mod_cast hround))

end Float32

namespace CGFloat

/-- `CGFloat(n)`. -/
def ofInt (n : ℕ) : ℚ := round 53 n

/-- `x * y`. -/
def mul (x y : ℚ) : ℚ := round 53 (x * y)

end CGFloat

end Solta
