import SymbolicLinalg.Literal
import SymbolicLinalg.Numeral

/-!
# Dual — numbers with an infinitesimal part

A dual number `a + a' ε` carries a value and its rate of change, and its arithmetic obeys the rules
of differentiation: evaluating an expression at `a + ε` gives its derivative at `a` as the
coefficient of `ε`.
-/

namespace SymbolicLinalg

/-- The number `real + infinitesimal * ε`, where `ε * ε = 0`. -/
structure Dual (K : Type) where
  real : K
  infinitesimal : K
  deriving DecidableEq, Repr

namespace Dual

variable {K : Type} [Arithmetic K]

open Arithmetic (add sub mul div neg cos sin sqrt)

/-- A number that does not change. -/
def constant (x : K) : Dual K :=
  ⟨x, Arithmetic.zero⟩

/-- Doubles a number. -/
def twice (x : K) : K :=
  add x x

instance : Arithmetic (Dual K) where
  zero := constant Arithmetic.zero
  one := constant Arithmetic.one
  add a b := ⟨add a.real b.real, add a.infinitesimal b.infinitesimal⟩
  sub a b := ⟨sub a.real b.real, sub a.infinitesimal b.infinitesimal⟩
  mul a b :=
    ⟨mul a.real b.real, add (mul a.infinitesimal b.real) (mul a.real b.infinitesimal)⟩
  div a b :=
    ⟨div a.real b.real,
      div (sub (mul a.infinitesimal b.real) (mul a.real b.infinitesimal)) (mul b.real b.real)⟩
  neg a := ⟨neg a.real, neg a.infinitesimal⟩
  cos a := ⟨cos a.real, mul (neg (sin a.real)) a.infinitesimal⟩
  sin a := ⟨sin a.real, mul (cos a.real) a.infinitesimal⟩
  sqrt a := ⟨sqrt a.real, div a.infinitesimal (twice (sqrt a.real))⟩
  isEqual a b :=
    Arithmetic.isEqual a.real b.real && Arithmetic.isEqual a.infinitesimal b.infinitesimal

instance [Numeral K] : Numeral (Dual K) where
  plain a := Numeral.text a.real ++ " + " ++ Numeral.text a.infinitesimal ++ " ε"
  compact a := Numeral.compact a.real ++ " + " ++ Numeral.compact a.infinitesimal ++ " ε"
  isNegative _ := false
  code target a :=
    "(" ++ Numeral.code target a.real ++ ", " ++ Numeral.code target a.infinitesimal ++ ")"

end Dual

namespace Literal

variable {K : Type}

/-- A literal with a tangent of the same shape. -/
def withTangent (value tangent : Literal K) : Literal (Dual K) :=
  ⟨value.shape, List.zipWith Dual.mk value.components tangent.components⟩

/-- A literal that does not change. -/
def steady [Arithmetic K] (value : Literal K) : Literal (Dual K) :=
  ⟨value.shape, value.components.map Dual.constant⟩

/-- The values of the components. -/
def realPart (value : Literal (Dual K)) : Literal K :=
  ⟨value.shape, value.components.map Dual.real⟩

/-- The rates of change of the components. -/
def tangent (value : Literal (Dual K)) : Literal K :=
  ⟨value.shape, value.components.map Dual.infinitesimal⟩

theorem realPart_steady [Arithmetic K] (value : Literal K) : value.steady.realPart = value := by
  simp [steady, realPart, Dual.constant, Function.comp_def]

end Literal

end SymbolicLinalg
