import SymbolicLinalg.Derivative
import SymbolicLinalg.Gradient
import SymbolicLinalg.Kernel
import SymbolicLinalg.Lowering
import SymbolicLinalg.Standard

/-!
# Pose — kernels for a rigid pose and its derivatives

A pose is a shift by `x`, `y`, `z` after the rotations by the Euler angles `c`, `b`, `a` about
the axes `Z`, `Y`, `X`.  Four kernels are made of it:

* `pose`: the matrix, and the image of a point in Cartesian coordinates;
* `pose_jacobian`: the derivatives of the matrix by the six variables;
* `pose_gradient`: a weighted sum of the moved point, and its gradient;
* `heading`: a planar direction turned by the angle `c`.
-/

namespace SymbolicLinalg

namespace Pose

variable {K : Type} [Arithmetic K] [Numeral K]

def variableNames : List String :=
  ["x", "y", "z", "a", "b", "c"]

/-- The product of a matrix with the rotation of a name by an angle. -/
def rotateBy (r : Registry K) (matrix : Node K) (name : String) (angle : Node K) :
    Work K (Node K) := do
  let factor ← r.apply name [angle]
  r.apply "*" [matrix, factor]

/-- The matrix of the pose over its six variables. -/
def matrix (r : Registry K) (x y z a b c : Node K) : Work K (Node K) := do
  let shift ← r.apply "mat44Translation" [x, y, z]
  let identity ← Node.newConstant (.one .mat44)
  let aboutZ ← rotateBy r identity "mat44RotationZ" c
  let aboutZY ← rotateBy r aboutZ "mat44RotationY" b
  let rotation ← rotateBy r aboutZY "mat44RotationX" a
  r.apply "*" [shift, rotation]

/-- A kernel of lowered outputs, which share what they have in common. -/
def prepare (r : Registry K) (outputs : List (String × Node K)) : Work K (Kernel K) := do
  let lowered ← r.lowerAll (outputs.map Prod.snd)
  return ⟨(outputs.map Prod.fst).zip lowered⟩

/-- The kernels by their names, in the order in which they are written. -/
def kernels (r : Registry K) : Work K (List (String × Kernel K)) := do
  let x ← Node.newLeaf "x" .scalar
  let y ← Node.newLeaf "y" .scalar
  let z ← Node.newLeaf "z" .scalar
  let a ← Node.newLeaf "a" .scalar
  let b ← Node.newLeaf "b" .scalar
  let c ← Node.newLeaf "c" .scalar
  let leaves := [x, y, z, a, b, c]
  let pose ← matrix r x y z a b c
  let point ← Node.newLeaf "p" .vec4
  let moved ← r.apply "*" [pose, point]
  let cartesian ← r.apply "fromHomo" [moved]
  let columns ← r.jacobian pose leaves
  let weights ← Node.newLeaf "w" .vec4
  let loss ← r.apply "dot" [weights, moved]
  let gradients ← r.backprop loss leaves
  -- a variable that the loss does not depend on has a zero gradient
  let slopes ← leaves.mapM gradients.getOrZero
  let heading ← r.apply "mat33RotationZ" [c]
  let forward ← Node.newLeaf "v" .vec3
  let direction ← r.apply "*" [heading, forward]
  let named (stem : String) := (variableNames.map (stem ++ ·)).zip
  let poseKernel ← prepare r [("pose", pose), ("cartesian", cartesian)]
  let jacobianKernel ← prepare r (named "dpose_d" columns)
  let gradientKernel ← prepare r (("loss", loss) :: named "dloss_d" slopes)
  let headingKernel ← prepare r [("direction", direction)]
  return [("pose", poseKernel), ("pose_jacobian", jacobianKernel),
    ("pose_gradient", gradientKernel), ("heading", headingKernel)]

/-! ## The program -/

/-- What a run of the program writes, and why it stopped early if it did. -/
structure Output where
  lines : List String
  fault : Option Fault

/-- The lines of kernels, each under its name and followed by a blank line. -/
def sourceLines (r : Registry K) (target : Target) : List (String × Kernel K) → Output
  | [] => ⟨[], none⟩
  | (name, kernel) :: rest =>
      match kernel.emit r target with
      | (.error fault, _) => ⟨["// " ++ name], some fault⟩
      | (.ok (), emission) =>
          let others := sourceLines r target rest
          ⟨("// " ++ name) :: emission.lines.toList ++ "" :: others.lines, others.fault⟩

/-- Writes every kernel in the target of a name. -/
def generate (targetName : String) : Output :=
  match Target.ofName targetName with
  | .error e => ⟨[], some (.error e)⟩
  | .ok target =>
      let registry : Registry Float := .standard
      match (Work.runIn (kernels registry) .standard).1 with
      | .error fault => ⟨[], some fault⟩
      | .ok named => sourceLines registry target named

/-- Runs the program with its arguments; without any the target is `c`. -/
def run (arguments : List String) : Output :=
  generate (arguments.headD Target.c.name)

end Pose

/-- How the report of a fault begins. -/
def Fault.header : Fault → String
  | .error e => e.header
  | .nesting => "Error: the hooks of the operators call one another without end"
  | .unrendered _ => "Error: an operand was not rendered"

namespace Pose

def Output.exitCode (o : Output) : UInt32 :=
  if o.fault.isSome then 1 else 0

/-- The first line on the error channel, empty if nothing went wrong.  A name in the message may
hold colours and line ends. -/
def Output.errorLine (o : Output) : String :=
  Text.firstLine (Text.uncoloured ((o.fault.map Fault.header).getD ""))

end Pose

end SymbolicLinalg
