import Mathlib.Algebra.Field.Rat
import SymbolicLinalg.Numeral
import SymbolicLinalg.Proofs.Exact

/-!
# Rational — exact components

The rational numbers with a cosine and a sine that are right at the angle zero, which is all that the
simplifications know of them.
-/

namespace SymbolicLinalg

instance : Arithmetic ℚ where
  zero := 0
  one := 1
  add x y := x + y
  sub x y := x - y
  mul x y := x * y
  div x y := x / y
  neg x := -x
  cos x := 1 - x * x / 2
  sin x := x - x * x * x / 6
  sqrt x := x
  isEqual x y := decide (x = y)

instance : Numeral ℚ where
  plain x := toString x
  compact x := toString x
  isNegative x := decide (x < 0)
  code _ x := toString x

instance : FieldArithmetic ℚ where
  zero_eq := rfl
  one_eq := rfl
  add_eq _ _ := rfl
  sub_eq _ _ := rfl
  mul_eq _ _ := rfl
  neg_eq _ := rfl
  div_eq _ _ := rfl
  isEqual_iff _ _ := decide_eq_true_iff

instance : AngleArithmetic ℚ where
  cos_zero := by
    change (1 : ℚ) - 0 * 0 / 2 = 1
    simp
  sin_zero := by
    change (0 : ℚ) - 0 * 0 * 0 / 6 = 0
    simp

end SymbolicLinalg
