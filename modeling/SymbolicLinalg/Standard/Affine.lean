import SymbolicLinalg.Standard.Hooks

/-!
# Affine — shifts, axis scaling and the way back from homogeneous coordinates

A shift and an axis scaling put three scalars into the identity matrix, at the first three places
of the last column or of the diagonal.  They have no form of their own in a target and are expanded
into the constructor of the matrix.
-/

namespace SymbolicLinalg

namespace Standard

variable {K ρ σ : Type} [Arithmetic K]

/-- Which of the operands stands at a position of the matrix, if any. -/
def operandPlace? (positions : List Nat) (position : Nat) : Option Nat :=
  positions.idxOf? position

/-- The components of a matrix with given nodes at some positions and constants elsewhere. -/
def fillIn (positions : List Nat) (nodes : List (Node K)) (rest : Nat → K) :
    List Nat → Recipe K ρ σ (List (Node K)) :=
  Recipe.each fun i =>
    match (operandPlace? positions i).bind (nodes[·]?) with
    | some n => .done n
    | none => .scalar (rest i)

/-- The identity matrix with the three operands at the given positions. -/
def filledIdentity (name : String) (positions : List Nat)
    (optimize : List (Node K) → Rule K (Option (Node K))) : Definition K :=
  let all := List.range Shape.mat44.size
  { signature := ⟨.mat44, name, [.scalar, .scalar, .scalar]⟩
    hooks :=
      { optimize := some optimize
        expand := some fun operands => do
          let components ← fillIn positions operands (Literal.one .mat44).component all
          some <$> .assemble .mat44 components
        deriv := some fun _ operands => do
          let derivatives ← Recipe.each derive operands
          let components ← fillIn positions derivatives (fun _ => Arithmetic.zero) all
          .assemble .mat44 components
        gradient := some fun g operands => do
          let _ ← Recipe.each
            (fun (operand, position) => do
              let part ← .select g position
              contribute operand part)
            (operands.zip positions)
          return
        fold := some fun values => Literal.ofFn .mat44 fun i =>
          match operandPlace? positions i with
          | some k => scalarAt values k
          | none => (Literal.one .mat44).component i } }

def shift : Definition K :=
  filledIdentity "mat44Translation" [12, 13, 14] fun operands =>
    if operands.all Node.isZero then some <$> .constant (.one .mat44) else return none

def axisScaling : Definition K :=
  filledIdentity "mat44Scale" [0, 5, 10] fun operands =>
    if operands.all Node.isZero then some <$> .constant (.oneHot .mat44 15)
    else if operands.all Node.isOne then some <$> .constant (.one .mat44)
    else return none

/-- The point of homogeneous coordinates: the first three divided by the fourth. -/
def fromHomogeneous : Definition K where
  signature := ⟨.vec3, "fromHomo", [.vec4]⟩
  hooks :=
    { replace := some <| onOne "fromHomo" fun p => do
        let w ← .select p 3
        let components ← Recipe.each
          (fun i => do
            let x ← .select p i
            .div x w)
          [0, 1, 2]
        .assemble .vec3 components }

end Standard

end SymbolicLinalg
