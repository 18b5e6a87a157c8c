import SymbolicLinalg.Arithmetic
import SymbolicLinalg.Error

/-!
# Literal — constant values and their arithmetic

A literal is a shape with its components in column-major order.  `Literal.ofComponents` checks that
their number is that of the shape; every operation below builds its result with that number of
components again.
-/

namespace SymbolicLinalg

structure Literal (K : Type) where
  shape : Shape
  components : List K
  deriving Repr

namespace Literal

variable {K : Type}

/-! ## Construction -/

/-- A literal from its flattened components. -/
def ofComponents (s : Shape) (components : List K) : Except Error (Literal K) :=
  if components.length = s.size then
    .ok ⟨s, components⟩
  else
    .error (.wrongCount s components.length)

/-- The literal whose component at position `i` is `f i`. -/
def ofFn (s : Shape) (f : Nat → K) : Literal K :=
  ⟨s, (List.range s.size).map f⟩

def scalar (x : K) : Literal K :=
  ⟨.scalar, [x]⟩

variable [Arithmetic K]

def zero (s : Shape) : Literal K :=
  ofFn s fun _ => Arithmetic.zero

/-- The multiplicative identity: the identity matrix for matrices, ones everywhere otherwise. -/
def one (s : Shape) : Literal K :=
  ofFn s fun i =>
    if s.isMatrix && s.rowOf i != s.colOf i then Arithmetic.zero else Arithmetic.one

/-- One at a single position and zero elsewhere. -/
def oneHot (s : Shape) (position : Nat) : Literal K :=
  ofFn s fun i => if i = position then Arithmetic.one else Arithmetic.zero

/-! ## Components -/

/-- The component at a position, zero past the end. -/
def component (a : Literal K) (position : Nat) : K :=
  a.components.getD position Arithmetic.zero

def get (a : Literal K) (row col : Nat) : K :=
  a.component (a.shape.index row col)

/-- The value of a literal that is a single real number. -/
def scalar? (a : Literal K) : Option K :=
  if a.shape.isScalar then some (a.component 0) else none

/-! ## Comparison -/

/-- Whether two lists of components are equal number by number. -/
def sameComponents : List K → List K → Bool
  | [], [] => true
  | x :: xs, y :: ys => Arithmetic.isEqual x y && sameComponents xs ys
  | _, _ => false

def isEqual (a b : Literal K) : Bool :=
  a.shape == b.shape && sameComponents a.components b.components

def isZero (a : Literal K) : Bool :=
  a.components.all Arithmetic.isZero

def isOne (a : Literal K) : Bool :=
  a.isEqual (one a.shape)

/-! ## Arithmetic -/

def map (f : K → K) (a : Literal K) : Literal K :=
  ⟨a.shape, a.components.map f⟩

/-- Combines the components of two literals of one shape pairwise. -/
def zipWith (f : K → K → K) (a b : Literal K) : Literal K :=
  ⟨a.shape, List.zipWith f a.components b.components⟩

def scale (factor : K) (a : Literal K) : Literal K :=
  a.map (Arithmetic.mul factor)

/-- The sum of the products of corresponding components. -/
def dot (a b : Literal K) : K :=
  Arithmetic.sum (List.zipWith Arithmetic.mul a.components b.components)

/-- The matrix product, with the shape of the result. -/
def product (a b : Literal K) (s : Shape) : Literal K :=
  ofFn s fun i =>
    Arithmetic.sum <| (List.range a.shape.cols).map fun k =>
      Arithmetic.mul (a.get (a.shape.rowOf i) k) (b.get k (a.shape.colOf i))

def transpose (a : Literal K) : Literal K :=
  ofFn a.shape fun i => a.get (a.shape.colOf i) (a.shape.rowOf i)

/-- The product of a column with a row, with the shape of the result. -/
def outer (a b : Literal K) (s : Shape) : Literal K :=
  ofFn s fun i => Arithmetic.mul (a.component (s.rowOf i)) (b.component (s.colOf i))

/-! ## The number of components -/

omit [Arithmetic K] in
theorem length_ofFn (s : Shape) (f : Nat → K) : (ofFn s f).components.length = s.size := by
  simp [ofFn]

omit [Arithmetic K] in
theorem shape_ofFn (s : Shape) (f : Nat → K) : (ofFn s f).shape = s := rfl

theorem component_ofFn {s : Shape} {f : Nat → K} {i : Nat} (h : i < s.size) :
    (ofFn s f).component i = f i := by
  simp [component, ofFn, List.getD_eq_getElem?_getD, List.getElem?_range h]

end Literal

end SymbolicLinalg
