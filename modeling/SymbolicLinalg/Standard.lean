import SymbolicLinalg.Standard.Affine
import SymbolicLinalg.Standard.Container
import SymbolicLinalg.Standard.Matrix
import SymbolicLinalg.Standard.Rotation
import SymbolicLinalg.Standard.Scalar

/-!
# Standard — the standard operators

| operators                                   | operands                                  |
| ------------------------------------------- | ----------------------------------------- |
| `+`, `-`, `*`, `/`, unary `-`, `cos`, `sin` | scalars                                   |
| `+`, `-`, `dot`                             | two vectors or matrices of one shape      |
| `*`                                         | a scalar and a vector or matrix           |
| `*`, `trans`                                | matrices; a matrix and a vector           |
| `outer`                                     | two vectors                               |
| `Vec3`, `Vec4`, `Mat33`, `Mat44`            | scalars, in column-major order            |
| `(i)`, `(r,c)`                              | a vector or matrix                        |
| `mat33RotationZ`, `mat44RotationX/Y/Z`      | an angle                                  |
| `mat44Translation`, `mat44Scale`            | three scalars                             |
| `mat44Rotation`                             | an axis and an angle                      |
| `fromHomo`                                  | a homogeneous point                       |

Nothing is defined for symbolic reals.  The axis rotations own one constant node each, their
generator; the identities of these nodes come first, and `Standard.workspace` goes on after them.
-/

namespace SymbolicLinalg

namespace Standard

variable {K : Type} [Arithmetic K] [Numeral K]

def operators : List (Definition K) :=
  let shapes := [Shape.vec3, .vec4, .mat33, .mat44]
  let matrices := [Shape.mat33, .mat44]
  let columns := [(Shape.mat33, Shape.vec3), (.mat44, .vec4)]
  scalarOperators ++
    shapes.flatMap (fun s => linear s ++ constructor s :: selectors s) ++
    matrices.flatMap (fun s => [transposition s, matrixProduct s]) ++
    columns.flatMap (fun c => [columnProduct c.1 c.2, outerProduct c.1 c.2]) ++
    axisRotations.mapIdx (fun id r => r.definition id) ++
    [shift, axisScaling, axisAngleRotation, fromHomogeneous]

end Standard

/-- The registry of the standard operators. -/
def Registry.standard {K : Type} [Arithmetic K] [Numeral K] : Registry K :=
  ⟨Standard.operators⟩

/-- A workspace whose identities are not those of the standard operators. -/
def Workspace.standard {K : Type} : Workspace K :=
  ⟨Standard.axisRotations.length, #[]⟩

end SymbolicLinalg
