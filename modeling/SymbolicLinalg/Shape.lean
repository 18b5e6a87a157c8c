/-!
# Shape — the closed catalog of value shapes

Every expression has one of six shapes.  Shapes serve two purposes: operators are dispatched on the
shapes of their operands, and the components of a value are laid out by its shape.

A value of shape `s` has `s.size` components in column-major order: the element in row `r` and
column `c` stands at `s.index r c`.  Vectors are columns.
-/

namespace SymbolicLinalg

inductive Shape where
  | scalar
  | vec3
  | vec4
  | mat33
  | mat44
  /-- A symbolic real: laid out like `scalar`, but a distinct key for dispatch. -/
  | genericScalar
  deriving DecidableEq, Repr, Inhabited

namespace Shape

/-- The catalog, in its order. -/
def all : List Shape :=
  [.scalar, .vec3, .vec4, .mat33, .mat44, .genericScalar]

/-! ## Dimensions -/

def rows : Shape → Nat
  | .scalar | .genericScalar => 1
  | .vec3 | .mat33 => 3
  | .vec4 | .mat44 => 4

def cols : Shape → Nat
  | .scalar | .genericScalar | .vec3 | .vec4 => 1
  | .mat33 => 3
  | .mat44 => 4

/-- The number of components of a value. -/
def size (s : Shape) : Nat :=
  s.rows * s.cols

/-- The column-major position of an element. -/
def index (s : Shape) (row col : Nat) : Nat :=
  row + s.rows * col

/-- The row of the component at a position. -/
def rowOf (s : Shape) (position : Nat) : Nat :=
  position % s.rows

/-- The column of the component at a position. -/
def colOf (s : Shape) (position : Nat) : Nat :=
  position / s.rows

theorem rows_pos (s : Shape) : 0 < s.rows := by
  cases s <;> decide

theorem index_rowOf_colOf (s : Shape) (i : Nat) : s.index (s.rowOf i) (s.colOf i) = i :=
  Nat.mod_add_div i s.rows

theorem rowOf_index {s : Shape} {r c : Nat} (h : r < s.rows) : s.rowOf (s.index r c) = r := by
  simp [rowOf, index, Nat.mod_eq_of_lt h]

theorem colOf_index {s : Shape} {r c : Nat} (h : r < s.rows) : s.colOf (s.index r c) = c := by
  simp [colOf, index, Nat.add_mul_div_left r c s.rows_pos, Nat.div_eq_of_lt h]

theorem rowOf_lt (s : Shape) (i : Nat) : s.rowOf i < s.rows :=
  Nat.mod_lt i s.rows_pos

theorem colOf_lt {s : Shape} {i : Nat} (h : i < s.size) : s.colOf i < s.cols :=
  Nat.div_lt_of_lt_mul h

theorem index_lt_size {s : Shape} {r c : Nat} (hr : r < s.rows) (hc : c < s.cols) :
    s.index r c < s.size := by
  -- the element lies in a column before the end of column `c`
  calc s.index r c < s.rows + s.rows * c := Nat.add_lt_add_right hr _
    _ = s.rows * (c + 1) := by rw [Nat.mul_succ, Nat.add_comm]
    _ ≤ s.size := Nat.mul_le_mul_left s.rows hc

/-! ## Families -/

def isScalar : Shape → Bool
  | .scalar | .genericScalar => true
  | _ => false

def isVector : Shape → Bool
  | .vec3 | .vec4 => true
  | _ => false

def isMatrix : Shape → Bool
  | .mat33 | .mat44 => true
  | _ => false

/-! ## Names -/

/-- The name used in signatures and messages. -/
def name : Shape → String
  | .scalar => "Scalar"
  | .vec3 => "Vec3"
  | .vec4 => "Vec4"
  | .mat33 => "Mat33"
  | .mat44 => "Mat44"
  | .genericScalar => "GenericScalar"

def ofName? (text : String) : Option Shape :=
  all.find? (·.name == text)

/-- A parenthesised list of shapes, as messages write the operands of an operator. -/
def tuple (shapes : List Shape) : String :=
  "(" ++ ", ".intercalate (shapes.map name) ++ ")"

end Shape

end SymbolicLinalg
