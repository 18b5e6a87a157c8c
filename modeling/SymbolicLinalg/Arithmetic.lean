/-!
# Arithmetic — what the components of a value are computed with

Expressions are built, simplified and folded over any type of components that offers the operations
below.  No law is asked of them: the double-precision numbers are one instance, and an exact field
with an arbitrary cosine and sine is another.
-/

namespace SymbolicLinalg

class Arithmetic (K : Type) where
  zero : K
  one : K
  add : K → K → K
  sub : K → K → K
  mul : K → K → K
  div : K → K → K
  neg : K → K
  cos : K → K
  sin : K → K
  sqrt : K → K
  /-- Numeric equality, which need not be reflexive. -/
  isEqual : K → K → Bool

namespace Arithmetic

variable {K : Type} [Arithmetic K]

def isZero (x : K) : Bool :=
  isEqual x zero

/-- Adds from left to right, starting from the negated zero, so that a sum whose terms are all
negative zeros is a negative zero. -/
def sum (terms : List K) : K :=
  terms.foldl add (neg zero)

end Arithmetic

instance : Arithmetic Float where
  zero := 0.0
  one := 1.0
  add := Float.add
  sub := Float.sub
  mul := Float.mul
  div := Float.div
  neg := Float.neg
  cos := Float.cos
  sin := Float.sin
  sqrt := Float.sqrt
  isEqual := Float.beq

end SymbolicLinalg
