import SymbolicLinalg.Standard.Hooks

/-!
# Linear — sums, differences, multiples and inner products

`+` and `-` are defined for scalars and for every vector and matrix shape; multiples and `dot` for
the vectors and matrices.  A vector or matrix is negated by multiplying it with minus one, a scalar
by the operator of its own.
-/

namespace SymbolicLinalg

namespace Standard

variable {K ρ σ : Type} [Arithmetic K]

/-- The negative of a node of a shape. -/
def negated (s : Shape) (a : Node K) : Recipe K ρ σ (Node K) :=
  if s.isScalar then .neg a
  else do
    let factor ← .scalar (Arithmetic.neg Arithmetic.one)
    .mul factor a

/-- In JavaScript there are functions for vectors and matrices, and operators for scalars. -/
def linearRendering (s : Shape) (symbol operation : String) :
    Target → Option (List String → String) :=
  rendering (between symbol)
    (if s.isScalar then between symbol else call (helper operation [s, s]))

def addition (s : Shape) : Definition K :=
  let fold := foldTwo s (Literal.zipWith Arithmetic.add)
  { signature := ⟨s, "+", [s, s]⟩
    hooks :=
      { optimize := some <| foldingFirst fold <| onTwo "+" fun a b =>
          return if a.isZero then some b else if b.isZero then some a else none
        deriv := some fun _ => onTwo "+" fun a b => do
          let da ← derive a
          let db ← derive b
          .add da db
        gradient := some fun g => onTwo "+" fun a b => do
          contribute a g
          contribute b g
        fold := some fold
        render := linearRendering s "+" "add" } }

def subtraction (s : Shape) : Definition K :=
  let fold := foldTwo s (Literal.zipWith Arithmetic.sub)
  { signature := ⟨s, "-", [s, s]⟩
    hooks :=
      { optimize := some <| foldingFirst fold <| onTwo "-" fun a b =>
          if b.isZero then return some a
          else if a.isZero then some <$> negated s b
          else return none
        deriv := some fun _ => onTwo "-" fun a b => do
          let da ← derive a
          let db ← derive b
          .sub da db
        gradient := some fun g => onTwo "-" fun a b => do
          let minus ← negated s g
          contribute a g
          contribute b minus
        fold := some fold
        render := linearRendering s "-" "sub" } }

/-- A scalar times a vector or matrix. -/
def scaling (s : Shape) : Definition K :=
  let fold := foldTwo s fun a b => b.scale (a.component 0)
  { signature := ⟨s, "*", [.scalar, s]⟩
    hooks :=
      { optimize := some <| foldingFirst fold <| onTwo "*" fun a b =>
          if a.isZero || b.isZero then some <$> .constant (.zero s)
          else if a.isOne then return some b
          else return none
        deriv := some fun _ => onTwo "*" productRule
        gradient := some fun g => onTwo "*" fun a b => do
          let da ← .dot b g
          contribute a da
          let db ← .mul a g
          contribute b db
        fold := some fold
        render := rendering (between "*") (call (helper "mul" [.scalar, s])) } }

/-- The sum of the products of corresponding components. -/
def innerProduct (s : Shape) : Definition K :=
  let fold := foldTwo .scalar fun a b => .scalar (a.dot b)
  { signature := ⟨.scalar, "dot", [s, s]⟩
    hooks :=
      { optimize := some <| foldingFirst fold <| onTwo "dot" fun a b =>
          if a.isZero || b.isZero then some <$> .scalar Arithmetic.zero else return none
        deriv := some fun _ => onTwo "dot" fun a b => do
          let da ← derive a
          let db ← derive b
          let left ← .dot da b
          let right ← .dot a db
          .add left right
        gradient := some fun g => onTwo "dot" fun a b => do
          let da ← .mul g b
          contribute a da
          let db ← .mul g a
          contribute b db
        fold := some fold
        render := rendering (call "dot") (call (helper "dot" [s, s])) } }

/-- The linear operators of a vector or matrix shape. -/
def linear (s : Shape) : List (Definition K) :=
  [addition s, subtraction s, scaling s, innerProduct s]

end Standard

end SymbolicLinalg
