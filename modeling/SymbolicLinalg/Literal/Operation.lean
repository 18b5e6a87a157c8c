import SymbolicLinalg.Literal

/-!
# Operation — the arithmetic of literals by name

Operators that are declared as data fold by one of these operations.
-/

namespace SymbolicLinalg

namespace Literal

inductive Operation where
  | add
  | sub
  | mul
  | div
  | neg
  | cos
  | sin
  | sqrt
  | scale
  | dot
  | product
  | transpose
  | outer
  | zero
  | one
  | first
  deriving DecidableEq, Repr

namespace Operation

variable {K : Type} [Arithmetic K]

/-- The value of an operation on literals.  The shape is that of the result, where the operands do
not determine it. -/
def apply (operation : Operation) (s : Shape) (operands : List (Literal K)) : Literal K :=
  let a := operands.getD 0 (.zero s)
  let b := operands.getD 1 (.zero s)
  match operation with
  | .add => .zipWith Arithmetic.add a b
  | .sub => .zipWith Arithmetic.sub a b
  | .mul => .zipWith Arithmetic.mul a b
  | .div => .zipWith Arithmetic.div a b
  | .neg => a.map Arithmetic.neg
  | .cos => a.map Arithmetic.cos
  | .sin => a.map Arithmetic.sin
  | .sqrt => a.map Arithmetic.sqrt
  | .scale => b.scale (a.component 0)
  | .dot => .scalar (a.dot b)
  | .product => a.product b s
  | .transpose => a.transpose
  | .outer => .outer a b s
  | .zero => .zero s
  | .one => .one s
  | .first => a

end Operation

end Literal

end SymbolicLinalg
