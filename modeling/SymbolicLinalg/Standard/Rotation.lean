import SymbolicLinalg.Code
import SymbolicLinalg.Standard.Hooks

/-!
# Rotation — rotations about a coordinate axis and about any axis

The matrix of a rotation about a coordinate axis is a table of cells: each component is zero, one,
the cosine, the sine or the negative sine of the angle.  From the table come the value, the
expansion into a constructor, the source text and the generator `G` with `R'(a) = R(a) G`.

The rotation about an arbitrary axis is computed by the runtime of the target; here it is only
folded, by the formula of Rodrigues.
-/

namespace SymbolicLinalg

namespace Standard

variable {K ρ σ : Type} [Arithmetic K]

/-! ## Cells -/

inductive Cell where
  | zero
  | one
  | cos
  | sin
  | negSin
  deriving DecidableEq, Repr, Inhabited

namespace Cell

/-- The component at a cosine and a sine. -/
def value (c s : K) : Cell → K
  | .zero => Arithmetic.zero
  | .one => Arithmetic.one
  | .cos => c
  | .sin => s
  | .negSin => Arithmetic.neg s

/-- The component of the generator. -/
def generator : Cell → K
  | .sin => Arithmetic.one
  | .negSin => Arithmetic.neg Arithmetic.one
  | _ => Arithmetic.zero

end Cell

/-- A rotation about a coordinate axis: its name, its shape, its cells in column-major order, and
whether it is rendered without being lowered. -/
structure AxisRotation where
  name : String
  shape : Shape
  cells : List Cell
  rendered : Bool

namespace AxisRotation

def planar : AxisRotation :=
  ⟨"mat33RotationZ", .mat33,
    [.cos, .sin, .zero,
      .negSin, .cos, .zero,
      .zero, .zero, .one], true⟩

def aboutX : AxisRotation :=
  ⟨"mat44RotationX", .mat44,
    [.one, .zero, .zero, .zero,
      .zero, .cos, .sin, .zero,
      .zero, .negSin, .cos, .zero,
      .zero, .zero, .zero, .one], false⟩

def aboutY : AxisRotation :=
  ⟨"mat44RotationY", .mat44,
    [.cos, .zero, .negSin, .zero,
      .zero, .one, .zero, .zero,
      .sin, .zero, .cos, .zero,
      .zero, .zero, .zero, .one], false⟩

def aboutZ : AxisRotation :=
  ⟨"mat44RotationZ", .mat44,
    [.cos, .sin, .zero, .zero,
      .negSin, .cos, .zero, .zero,
      .zero, .zero, .one, .zero,
      .zero, .zero, .zero, .one], false⟩

def cell (r : AxisRotation) (position : Nat) : Cell :=
  r.cells.getD position .zero

def value (r : AxisRotation) (angle : K) : Literal K :=
  Literal.ofFn r.shape fun i => (r.cell i).value (Arithmetic.cos angle) (Arithmetic.sin angle)

def generator (r : AxisRotation) : Literal K :=
  Literal.ofFn r.shape fun i => (r.cell i).generator

/-! ### Expansion -/

/-- The node of one component, given those of the cosine, the sine and the negative sine. -/
def cellNode (c s negS : Node K) : Cell → Recipe K ρ σ (Node K)
  | .zero => .scalar Arithmetic.zero
  | .one => .scalar Arithmetic.one
  | .cos => .done c
  | .sin => .done s
  | .negSin => .done negS

/-- The constructor of the matrix over the cosine and the sine of an angle. -/
def expansion (r : AxisRotation) (angle : Node K) : Recipe K ρ σ (Node K) := do
  let c ← .cos angle
  let s ← .sin angle
  let negS ← .neg s
  let components ← Recipe.each (cellNode c s negS) r.cells
  .assemble r.shape components

/-! ### Source text -/

/-- What a target calls the cosine and the sine. -/
def functions : Target → String × String
  | .c => ("cos", "sin")
  | .js => ("Math.cos", "Math.sin")

def cellText [Numeral K] (target : Target) (angle : String) : Cell → String
  | .zero => Numeral.code target (Arithmetic.zero : K)
  | .one => Numeral.code target (Arithmetic.one : K)
  | .cos => call (functions target).1 [angle]
  | .sin => call (functions target).2 [angle]
  | .negSin => "(-" ++ call (functions target).2 [angle] ++ ")"

def text (K : Type) [Arithmetic K] [Numeral K] (r : AxisRotation) (target : Target)
    (operands : List String) : String :=
  target.container r.shape (r.cells.map (cellText (K := K) target (", ".intercalate operands)))

/-! ### Definition -/

variable [Numeral K]

/-- The operator, whose derivative and gradient share one node for the generator. -/
def definition (r : AxisRotation) (generatorId : NodeId) : Definition K :=
  let generator : Node K := .constant generatorId r.generator
  { signature := ⟨r.shape, r.name, [.scalar]⟩
    hooks :=
      { optimize := some <| onOne r.name fun a =>
          if a.isZero then some <$> .constant (.one r.shape) else return none
        expand := some <| onOne r.name fun a => some <$> r.expansion a
        deriv := some fun _ => onOne r.name fun a => do
          -- R(a)' = a' R(a) G
          let da ← derive a
          let rotated ← .apply r.name [a]
          let slope ← .mul rotated generator
          .mul da slope
        gradient := some fun g => onOne r.name fun a => do
          let rotated ← .apply r.name [a]
          let slope ← .mul rotated generator
          let da ← .dot g slope
          contribute a da
        fold := some <| foldOne r.shape fun a => r.value (a.component 0)
        render := if r.rendered then rendering (r.text K .c) (r.text K .js) else fun _ => none } }

end AxisRotation

def axisRotations : List AxisRotation :=
  [.planar, .aboutX, .aboutY, .aboutZ]

/-! ## Any axis -/

/-- The component of the cross-product matrix of a vector. -/
def crossComponent (k : Literal K) : Nat → Nat → K
  | 1, 0 => k.component 2
  | 0, 1 => Arithmetic.neg (k.component 2)
  | 0, 2 => k.component 1
  | 2, 0 => Arithmetic.neg (k.component 1)
  | 2, 1 => k.component 0
  | 1, 2 => Arithmetic.neg (k.component 0)
  | _, _ => Arithmetic.zero

/-- The component of the rotation by an angle about a unit axis. -/
def rodriguesComponent (k : Literal K) (c s : K) : Nat → Nat → K
  | 3, 3 => Arithmetic.one
  | 3, _ | _, 3 => Arithmetic.zero
  | row, col =>
      let diagonal := if row = col then c else Arithmetic.zero
      let tilt := Arithmetic.mul s (crossComponent k row col)
      let spread := Arithmetic.mul
        (Arithmetic.mul (Arithmetic.sub Arithmetic.one c) (k.component row)) (k.component col)
      Arithmetic.add (Arithmetic.add diagonal tilt) spread

/-- The rotation by an angle about an axis, which is normalised first; there is no rotation about
the zero vector. -/
def rodrigues (axis : Literal K) (angle : K) : Literal K :=
  let norm := Arithmetic.sqrt (axis.dot axis)
  -- no direction can be told
  if Arithmetic.isZero norm then .one .mat44
  else
    let k := axis.map fun x => Arithmetic.div x norm
    Literal.ofFn .mat44 fun i =>
      rodriguesComponent k (Arithmetic.cos angle) (Arithmetic.sin angle)
        (Shape.mat44.rowOf i) (Shape.mat44.colOf i)

def axisAngleRotation : Definition K where
  signature := ⟨.mat44, "mat44Rotation", [.vec3, .scalar]⟩
  hooks :=
    { optimize := some <| onTwo "mat44Rotation" fun _ angle =>
        if angle.isZero then some <$> .constant (.one .mat44) else return none
      fold := some <| foldTwo .mat44 fun axis angle => rodrigues axis (angle.component 0)
      render := rendering (call "mat44Rotation") (call "Geom3D.mat44Rotation") }

end Standard

end SymbolicLinalg
