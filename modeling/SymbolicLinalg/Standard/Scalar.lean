import SymbolicLinalg.Standard.Linear

/-!
# Scalar — arithmetic and trigonometry of scalars

Besides `+` and `-`, which scalars share with the other shapes, these are the unary `-`, `*`, `/`,
`cos` and `sin`.
-/

namespace SymbolicLinalg

namespace Standard

variable {K : Type} [Arithmetic K]

def negation : Definition K :=
  let fold := foldOne .scalar (Literal.map Arithmetic.neg)
  { signature := ⟨.scalar, "-", [.scalar]⟩
    hooks :=
      { optimize := some <| foldingFirst fold <| onOne "-" fun a =>
          -- the minus sign of two operands has the same name
          return if a.applies "-" && a.operands.length == 1 then a.operands.head? else none
        deriv := some fun _ => onOne "-" fun a => do
          let da ← derive a
          .neg da
        gradient := some fun g => onOne "-" fun a => do
          let minus ← .neg g
          contribute a minus
        fold := some fold
        render := rendering (around "(-" ")") (around "(-" ")") } }

def multiplication : Definition K :=
  let fold := foldTwo .scalar (Literal.zipWith Arithmetic.mul)
  { signature := ⟨.scalar, "*", [.scalar, .scalar]⟩
    hooks :=
      { optimize := some <| foldingFirst fold <| onTwo "*" fun a b =>
          return if a.isZero then some a else if a.isOne then some b
            else if b.isZero then some b else if b.isOne then some a else none
        deriv := some fun _ => onTwo "*" productRule
        gradient := some fun g => onTwo "*" fun a b => do
          let da ← .mul g b
          contribute a da
          let db ← .mul a g
          contribute b db
        fold := some fold
        render := rendering (between "*") (between "*") } }

def division : Definition K :=
  let fold := foldTwo .scalar (Literal.zipWith Arithmetic.div)
  { signature := ⟨.scalar, "/", [.scalar, .scalar]⟩
    hooks :=
      { optimize := some <| foldingFirst fold <| onTwo "/" fun a b =>
          return if a.isZero || b.isOne then some a else none
        deriv := some fun _ => onTwo "/" fun a b => do
          -- (a' b - a b') / b²
          let da ← derive a
          let db ← derive b
          let left ← .mul da b
          let right ← .mul a db
          let numerator ← .sub left right
          let denominator ← .mul b b
          .div numerator denominator
        gradient := some fun g => onTwo "/" fun a b => do
          -- g / b to the dividend, - (g / b) (a / b) to the divisor
          let quotient ← .div a b
          let da ← .div g b
          let product ← .mul da quotient
          let db ← .neg product
          contribute a da
          contribute b db
        fold := some fold
        render := rendering (between "/") (between "/") } }

def cosine : Definition K :=
  let fold := foldOne .scalar (Literal.map Arithmetic.cos)
  { signature := ⟨.scalar, "cos", [.scalar]⟩
    hooks :=
      { optimize := some (foldingOnly fold)
        deriv := some fun _ => onOne "cos" fun a => do
          let da ← derive a
          let sine ← .sin a
          let slope ← .neg sine
          .mul slope da
        gradient := some fun g => onOne "cos" fun a => do
          let sine ← .sin a
          let slope ← .neg sine
          let da ← .mul slope g
          contribute a da
        fold := some fold
        render := rendering (call "cos") (call "Math.cos") } }

def sine : Definition K :=
  let fold := foldOne .scalar (Literal.map Arithmetic.sin)
  { signature := ⟨.scalar, "sin", [.scalar]⟩
    hooks :=
      { optimize := some (foldingOnly fold)
        deriv := some fun _ => onOne "sin" fun a => do
          let da ← derive a
          let slope ← .cos a
          .mul slope da
        gradient := some fun g => onOne "sin" fun a => do
          let slope ← .cos a
          let da ← .mul slope g
          contribute a da
        fold := some fold
        render := rendering (call "sin") (call "Math.sin") } }

def scalarOperators : List (Definition K) :=
  [addition .scalar, subtraction .scalar, negation, multiplication, division, cosine, sine]

end Standard

end SymbolicLinalg
