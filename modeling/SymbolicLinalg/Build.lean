import SymbolicLinalg.Registry
import SymbolicLinalg.Workspace

/-!
# Build — making nodes by the rules of a registry

Applying an operator resolves it, checks its operands and gives its `optimize` hook the chance to
answer with a simpler node.  That hook applies operators itself, whose hooks may apply others: the
construction is nested, and `Registry.make` bounds how deeply.

`Registry.makeWith` is one level of it, over any way `inner` to carry out the constructions that
hooks ask for.
-/

namespace SymbolicLinalg

namespace Node

variable {K : Type}

def newConstant (value : Literal K) : Work K (Node K) := do
  let id ← Work.fresh
  return .constant id value

def newLeaf (name : String) (shape : Shape) : Work K (Node K) := do
  let id ← Work.fresh
  return .leaf id name shape

/-- A new application, without simplification. -/
def newApplication (s : Signature) (operands : List (Node K)) : Work K (Node K) := do
  let id ← Work.fresh
  return .application id s operands

end Node

namespace Registry

variable {K : Type}

/-- The first operand whose shape is not the expected one, with its position. -/
def mismatch? (position : Nat) : List (Node K) → List Shape → Option (Nat × Shape)
  | n :: rest, s :: shapes =>
      if n.shape = s then mismatch? (position + 1) rest shapes else some (position, n.shape)
  | _, _ => none

/-- Refuses operands that do not fit a signature. -/
def checkOperands (s : Signature) (operands : List (Node K)) : Except Error Unit :=
  if operands.length ≠ s.operands.length then
    .error (.noOperator s.name (operands.map Node.shape) [s.text])
  else
    match mismatch? 0 operands s.operands with
    | some (position, given) => .error (.wrongOperand s position given)
    | none => .ok ()

/-- Carries out a recipe that only builds. -/
def follow {α : Type} (inner : Construction K → Work K (Node K)) (rule : Rule K α) : Work K α :=
  rule.run inner Empty.elim Work.refuse

/-- What the `optimize` hook of a definition makes of operands, if there is one. -/
def simplify? (inner : Construction K → Work K (Node K)) (d : Definition K)
    (operands : List (Node K)) : Work K (Option (Node K)) :=
  match d.hooks.optimize with
  | some optimize => follow inner (optimize operands)
  | none => pure none

/-- The simplified node, which must have the shape of the result, or else a new application. -/
def settle (d : Definition K) (operands : List (Node K)) : Option (Node K) → Work K (Node K)
  | some simplified =>
      if simplified.shape ≠ d.signature.result then
        Work.refuse (.wrongResult d.signature "optimize" simplified.shape)
      else do
        Work.record (.simplified d.signature simplified)
        return simplified
  | none => Node.newApplication d.signature operands

/-- Applies a definition to operands. -/
def buildWith (inner : Construction K → Work K (Node K)) (d : Definition K)
    (operands : List (Node K)) : Work K (Node K) := do
  Work.ofExcept (checkOperands d.signature operands)
  -- the hook may rely on operands that fit
  let simplified? ← simplify? inner d operands
  settle d operands simplified?

/-- One level of construction. -/
def makeWith (r : Registry K) (inner : Construction K → Work K (Node K)) :
    Construction K → Work K (Node K)
  | .constant value => Node.newConstant value
  | .leaf name shape => Node.newLeaf name shape
  | .apply name operands => do
      let d ← Work.ofExcept (r.resolve name (operands.map Node.shape))
      buildWith inner d operands
  | .applyFor result name operands => do
      let d ← Work.ofExcept (r.resolveAs result name (operands.map Node.shape))
      buildWith inner d operands

/-- Construction in which hooks are nested fewer than `depth` times. -/
def makeWithin (r : Registry K) : Nat → Construction K → Work K (Node K)
  | 0, _ => throw .nesting
  | depth + 1, c => r.makeWith (r.makeWithin depth) c

/-- Carries out a construction. -/
def make (r : Registry K) (c : Construction K) : Work K (Node K) :=
  r.makeWithin nestingLimit c

theorem make_eq (r : Registry K) (c : Construction K) :
    r.make c = r.makeWith (r.makeWithin (nestingLimit - 1)) c := rfl

/-- Applies the operator of a name to operands. -/
def apply (r : Registry K) (name : String) (operands : List (Node K)) : Work K (Node K) :=
  r.make (.apply name operands)

/-- Applies the operator of a name to operands, for a result of the given shape. -/
def applyFor (r : Registry K) (result : Shape) (name : String) (operands : List (Node K)) :
    Work K (Node K) :=
  r.make (.applyFor result name operands)

/-- Applies a definition that has been found already. -/
def build (r : Registry K) (d : Definition K) (operands : List (Node K)) : Work K (Node K) :=
  buildWith r.make d operands

/-- Applies the operator of a signature, with the hooks it has in the registry. -/
def rebuild (r : Registry K) (s : Signature) (operands : List (Node K)) : Work K (Node K) :=
  r.build ⟨s, r.hooks s⟩ operands

/-- Registers an operator and records it. -/
def define (r : Registry K) (d : Definition K) : Work K (Registry K) := do
  let extended ← Work.ofExcept (r.register d)
  Work.record (.registered d.signature d.hooks.present)
  return extended

end Registry

end SymbolicLinalg
