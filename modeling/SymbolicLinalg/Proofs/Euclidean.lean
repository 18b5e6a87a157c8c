import Mathlib.Analysis.SpecialFunctions.Trigonometric.Basic
import SymbolicLinalg.Numeral
import SymbolicLinalg.Proofs.Exact

/-!
# Euclidean — components in which lengths and angles are exact

`EuclideanArithmetic K` asks of an ordered field what geometry needs: a cosine and a sine that lie on
the unit circle, and a square root that is not negative.  The real numbers are the example.
-/

namespace SymbolicLinalg

class EuclideanArithmetic (K : Type) [Field K] [LinearOrder K] [Arithmetic K] : Prop
    extends FieldArithmetic K where
  cos_sq_add_sin_sq (a : K) : Arithmetic.cos a * Arithmetic.cos a +
    Arithmetic.sin a * Arithmetic.sin a = 1
  sqrt_nonneg (x : K) : 0 ≤ x → 0 ≤ Arithmetic.sqrt x
  sqrt_mul_sqrt (x : K) : 0 ≤ x → Arithmetic.sqrt x * Arithmetic.sqrt x = x

namespace Arithmetic

variable {K : Type} [Field K] [LinearOrder K] [IsStrictOrderedRing K] [Arithmetic K]
  [EuclideanArithmetic K]

/-- The square root of a number is its only root that is not negative. -/
theorem sqrt_mul_self {x : K} (h : 0 ≤ x) : sqrt (x * x) = x := by
  have square := mul_self_nonneg x
  exact (mul_self_inj (EuclideanArithmetic.sqrt_nonneg _ square) h).1
    (EuclideanArithmetic.sqrt_mul_sqrt _ square)

theorem sqrt_eq_zero_iff {x : K} (h : 0 ≤ x) : sqrt x = 0 ↔ x = 0 := by
  constructor
  · intro zero
    rw [← EuclideanArithmetic.sqrt_mul_sqrt x h, zero, mul_zero]
  · rintro rfl
    simpa using sqrt_mul_self (le_refl (0 : K))

end Arithmetic

/-! ## The real numbers -/

noncomputable instance : Arithmetic ℝ where
  zero := 0
  one := 1
  add x y := x + y
  sub x y := x - y
  mul x y := x * y
  div x y := x / y
  neg x := -x
  cos := Real.cos
  sin := Real.sin
  sqrt := Real.sqrt
  isEqual x y := decide (x = y)

/-- Of a real number no more than its whole part is written. -/
noncomputable instance : Numeral ℝ where
  plain x := toString ⌊x⌋
  compact x := toString ⌊x⌋
  isNegative x := decide (x < 0)
  code _ x := toString ⌊x⌋

instance : EuclideanArithmetic ℝ where
  zero_eq := rfl
  one_eq := rfl
  add_eq _ _ := rfl
  sub_eq _ _ := rfl
  mul_eq _ _ := rfl
  neg_eq _ := rfl
  div_eq _ _ := rfl
  isEqual_iff _ _ := decide_eq_true_iff
  cos_sq_add_sin_sq a := by
    change Real.cos a * Real.cos a + Real.sin a * Real.sin a = 1
    rw [← sq, ← sq, Real.cos_sq_add_sin_sq]
  sqrt_nonneg x _ := Real.sqrt_nonneg x
  sqrt_mul_sqrt _ h := Real.mul_self_sqrt h

end SymbolicLinalg
