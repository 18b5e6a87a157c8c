import Mathlib.Algebra.BigOperators.Group.List.Basic
import Mathlib.Algebra.Field.Basic
import SymbolicLinalg.Dual

/-!
# Exact — components that are the numbers of a ring or a field

* `RingArithmetic K`: sums, differences and products are those of a commutative ring;
* `FieldArithmetic K`: also quotients are those of a field, in which a quotient by zero is zero, and
  numeric equality is equality;
* `AngleArithmetic K`: the cosine and the sine of zero are one and zero.  Of other angles, and of the
  square root, nothing is asked.

An `Arithmetic.Hom` carries one arithmetic over to another.  Reading a number as one that does not
change is such a map, and so is forgetting the rate of change of a dual number.
-/

namespace SymbolicLinalg

class RingArithmetic (K : Type) [CommRing K] [Arithmetic K] : Prop where
  zero_eq : (Arithmetic.zero : K) = 0
  one_eq : (Arithmetic.one : K) = 1
  add_eq (x y : K) : Arithmetic.add x y = x + y
  sub_eq (x y : K) : Arithmetic.sub x y = x - y
  mul_eq (x y : K) : Arithmetic.mul x y = x * y
  neg_eq (x : K) : Arithmetic.neg x = -x

class FieldArithmetic (K : Type) [Field K] [Arithmetic K] : Prop extends RingArithmetic K where
  div_eq (x y : K) : Arithmetic.div x y = x / y
  isEqual_iff (x y : K) : Arithmetic.isEqual x y = true ↔ x = y

class AngleArithmetic (K : Type) [Field K] [Arithmetic K] : Prop where
  cos_zero : Arithmetic.cos (0 : K) = 1
  sin_zero : Arithmetic.sin (0 : K) = 0

/-- The arithmetic is that of some field. -/
def IsFieldArithmetic (K : Type) [Arithmetic K] : Prop :=
  ∃ _ : Field K, FieldArithmetic K

attribute [simp] RingArithmetic.zero_eq RingArithmetic.one_eq RingArithmetic.add_eq
  RingArithmetic.sub_eq RingArithmetic.mul_eq RingArithmetic.neg_eq FieldArithmetic.div_eq
  FieldArithmetic.isEqual_iff AngleArithmetic.cos_zero AngleArithmetic.sin_zero

namespace Arithmetic

/-! ## Sums -/

@[simp] theorem isZero_iff {K : Type} [Field K] [Arithmetic K] [FieldArithmetic K] (x : K) :
    isZero x = true ↔ x = 0 := by
  simp [isZero]

@[simp] theorem sum_eq {K : Type} [CommRing K] [Arithmetic K] [RingArithmetic K]
    (terms : List K) : sum terms = terms.sum := by
  have general : ∀ start : K, terms.foldl add start = start + terms.sum := by
    induction terms with
    | nil =>
        intro start
        simp
    | cons x rest ih =>
        intro start
        rw [List.foldl_cons, ih, RingArithmetic.add_eq, List.sum_cons, add_assoc]
  rw [sum, general]
  simp

/-! ## Maps between arithmetics -/

variable {K L : Type} [Arithmetic K] [Arithmetic L]

/-- A map that carries every operation over, except for the comparison of numbers. -/
structure Hom (f : K → L) : Prop where
  zero : f zero = zero
  one : f one = one
  add (x y : K) : f (add x y) = add (f x) (f y)
  sub (x y : K) : f (sub x y) = sub (f x) (f y)
  mul (x y : K) : f (mul x y) = mul (f x) (f y)
  div (x y : K) : f (div x y) = div (f x) (f y)
  neg (x : K) : f (neg x) = neg (f x)
  cos (x : K) : f (cos x) = cos (f x)
  sin (x : K) : f (sin x) = sin (f x)
  sqrt (x : K) : f (sqrt x) = sqrt (f x)

theorem Hom.sum {f : K → L} (h : Hom f) (terms : List K) :
    f (Arithmetic.sum terms) = Arithmetic.sum (terms.map f) := by
  have general : ∀ start : K,
      f (terms.foldl Arithmetic.add start) =
        (terms.map f).foldl Arithmetic.add (f start) := by
    induction terms with
    | nil =>
        intro start
        rfl
    | cons x rest ih =>
        intro start
        simp only [List.foldl_cons, List.map_cons, ih, h.add]
  rw [Arithmetic.sum, Arithmetic.sum, general, h.neg, h.zero]

end Arithmetic

namespace Dual

open Arithmetic (Hom)

variable {K : Type} [Arithmetic K]

theorem real_hom : Hom (real : Dual K → K) where
  zero := rfl
  one := rfl
  add _ _ := rfl
  sub _ _ := rfl
  mul _ _ := rfl
  div _ _ := rfl
  neg _ := rfl
  cos _ := rfl
  sin _ := rfl
  sqrt _ := rfl

/-! ## Parts of sums -/

theorem infinitesimal_sum (terms : List (Dual K)) :
    (Arithmetic.sum terms).infinitesimal = Arithmetic.sum (terms.map infinitesimal) := by
  have general : ∀ start : Dual K,
      (terms.foldl Arithmetic.add start).infinitesimal =
        (terms.map infinitesimal).foldl Arithmetic.add start.infinitesimal := by
    induction terms with
    | nil =>
        intro start
        rfl
    | cons x rest ih =>
        intro start
        rw [List.foldl_cons, ih]
        rfl
  exact general (Arithmetic.neg Arithmetic.zero)

/-! ## Numbers that do not change -/

variable [Field K] [FieldArithmetic K]

theorem constant_hom : Hom (constant : K → Dual K) where
  zero := rfl
  one := rfl
  add x y := by simp [constant, Arithmetic.add]
  sub x y := by simp [constant, Arithmetic.sub]
  mul x y := by simp [constant, Arithmetic.mul]
  div x y := by simp [constant, Arithmetic.div]
  neg x := by simp [constant, Arithmetic.neg]
  cos x := by simp [constant, Arithmetic.cos]
  sin x := by simp [constant, Arithmetic.sin]
  sqrt x := by simp [constant, Arithmetic.sqrt]

theorem isEqual_constant (x y : K) :
    Arithmetic.isEqual (constant x) (constant y) = Arithmetic.isEqual x y := by
  have same : Arithmetic.isEqual (Arithmetic.zero : K) Arithmetic.zero = true := by simp
  change (Arithmetic.isEqual x y && Arithmetic.isEqual Arithmetic.zero Arithmetic.zero) = _
  rw [same, Bool.and_true]

theorem isZero_constant (x : K) : Arithmetic.isZero (constant x) = Arithmetic.isZero x :=
  isEqual_constant x Arithmetic.zero

/-! ## The rules of differentiation -/

theorem infinitesimal_mul (x y : Dual K) : (Arithmetic.mul x y).infinitesimal =
    x.infinitesimal * y.real + x.real * y.infinitesimal := by
  change Arithmetic.add (Arithmetic.mul x.infinitesimal y.real)
    (Arithmetic.mul x.real y.infinitesimal) = _
  simp

theorem infinitesimal_div (x y : Dual K) : (Arithmetic.div x y).infinitesimal =
    (x.infinitesimal * y.real - x.real * y.infinitesimal) / (y.real * y.real) := by
  change Arithmetic.div (Arithmetic.sub (Arithmetic.mul x.infinitesimal y.real)
    (Arithmetic.mul x.real y.infinitesimal)) (Arithmetic.mul y.real y.real) = _
  simp

theorem infinitesimal_cos (x : Dual K) : (Arithmetic.cos x).infinitesimal =
    -Arithmetic.sin x.real * x.infinitesimal := by
  change Arithmetic.mul (Arithmetic.neg (Arithmetic.sin x.real)) x.infinitesimal = _
  simp

theorem infinitesimal_sin (x : Dual K) : (Arithmetic.sin x).infinitesimal =
    Arithmetic.cos x.real * x.infinitesimal := by
  change Arithmetic.mul (Arithmetic.cos x.real) x.infinitesimal = _
  simp

end Dual

end SymbolicLinalg
