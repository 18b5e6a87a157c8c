import SymbolicLinalg.Build

/-!
# Derivative — forward symbolic differentiation

A constant differentiates to the zero constant, the variable to the identity constant of its shape,
and any other leaf to zero.  An application differentiates by the `deriv` hook of its operator,
which asks the pass for the derivatives of the operands.  Every derivative is remembered, so a
shared subexpression is differentiated once.

Differentiation is structural as long as hooks ask for operands only.  A hook may also ask for the
derivative of a node it has built; `deriveWith` leaves such requests to `again`, and `deriveWithin`
bounds how deeply they may be nested.
-/

namespace SymbolicLinalg

namespace Registry

variable {K : Type} [Arithmetic K]

/-- Answers a request for a derivative: a list of operands knows how to differentiate each of them,
anything else is left to `again`. -/
def answerDerivative (operands : List (NodeId × Pass K (Node K)))
    (again : Node K → Pass K (Node K)) (n : Node K) : Pass K (Node K) :=
  match operands.lookup n.id with
  | some derive => derive
  | none => again n

/-- Applies the `deriv` hook of an operator, given how requests are answered. -/
def differentiate (r : Registry K) (wrt : Node K) (id : NodeId) (s : Signature)
    (operands : List (Node K)) (answer : Node K → Pass K (Node K)) : Pass K (Node K) :=
  match (r.hooks s).deriv with
  | none => Work.within (Work.refuse (.missingHook s "deriv" "derivative"))
  | some deriv => do
      Work.within (Work.record (.differentiating id s))
      let derived ← (deriv wrt operands).run (fun c => Work.within (r.make c)) answer
        fun e => Work.within (Work.refuse e)
      if derived.shape ≠ s.result then
        Work.within (Work.refuse (.wrongResult s "deriv" derived.shape))
      else
        return derived

mutual

def deriveWith (r : Registry K) (wrt : Node K) (again : Node K → Pass K (Node K)) (n : Node K) :
    Pass K (Node K) := do
  match ← Pass.known? n.id with
  | some known => return known
  | none =>
      let derived ← match n with
        | .constant _ value => Work.within (Node.newConstant (.zero value.shape))
        | .leaf id _ shape =>
            Work.within (Node.newConstant (if id = wrt.id then .one shape else .zero shape))
        | .application id s operands =>
            -- nothing is differentiated before the hook asks for it
            r.differentiate wrt id s operands
              (answerDerivative (derivesWith r wrt again operands) again)
      Pass.remember n.id derived
      return derived

/-- How each of a list of nodes is differentiated. -/
def derivesWith (r : Registry K) (wrt : Node K) (again : Node K → Pass K (Node K))
    (nodes : List (Node K)) : List (NodeId × Pass K (Node K)) :=
  match nodes with
  | [] => []
  | n :: rest => (n.id, deriveWith r wrt again n) :: derivesWith r wrt again rest

end

theorem derivesWith_eq_map (r : Registry K) (wrt : Node K) (again : Node K → Pass K (Node K))
    (nodes : List (Node K)) :
    derivesWith r wrt again nodes = nodes.map fun n => (n.id, deriveWith r wrt again n) := by
  induction nodes with
  | nil => rfl
  | cons n rest ih => rw [derivesWith, ih, List.map_cons]

/-- Differentiation in which requests for other nodes than operands are nested fewer than `depth`
times. -/
def deriveWithin (r : Registry K) (wrt : Node K) : Nat → Node K → Pass K (Node K)
  | 0, _ => throw .nesting
  | depth + 1, n => r.deriveWith wrt (r.deriveWithin wrt depth) n

/-- Differentiates a node, within a pass that may have differentiated others. -/
def deriveNext (r : Registry K) (wrt n : Node K) : Pass K (Node K) :=
  r.deriveWithin wrt nestingLimit n

theorem deriveNext_eq (r : Registry K) (wrt n : Node K) :
    r.deriveNext wrt n = r.deriveWith wrt (r.deriveWithin wrt (nestingLimit - 1)) n := rfl

variable [Numeral K]

/-- Refuses to differentiate by anything but a leaf. -/
def checkVariable (wrt : Node K) : Except Error Unit :=
  if wrt.isLeaf then .ok () else .error (.notALeaf wrt.text "differentiation variable")

/-- The derivatives of several expressions by one leaf, in a single pass. -/
def deriveAll (r : Registry K) (wrt : Node K) (nodes : List (Node K)) : Work K (List (Node K)) := do
  Work.ofExcept (checkVariable wrt)
  Work.starting ∅ (nodes.mapM (r.deriveNext wrt))

/-- The derivative of an expression by a leaf. -/
def derivative (r : Registry K) (n wrt : Node K) : Work K (Node K) := do
  Work.ofExcept (checkVariable wrt)
  Work.starting ∅ (r.deriveNext wrt n)

/-- The derivatives of one expression by several leaves. -/
def jacobian (r : Registry K) (n : Node K) (leaves : List (Node K)) : Work K (List (Node K)) :=
  leaves.mapM (r.derivative n)

end Registry

end SymbolicLinalg
