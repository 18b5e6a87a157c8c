import SymbolicLinalg.Literal.Operation
import SymbolicLinalg.Registry
import SymbolicLinalg.Term

/-!
# Declaration — operators declared as data

A declaration gives the hooks of an operator as terms over its operands, guarded by conditions where
a hook may decline.  `Declaration.definition` turns it into a definition.
-/

namespace SymbolicLinalg

/-! ## Conditions -/

/-- A condition on operands, which are named by their places. -/
inductive Condition where
  | always
  | zero (place : Nat)
  | one (place : Nat)
  | constant (place : Nat)
  | leaf (place : Nat)
  | applies (place : Nat) (name : String)
  | same (place other : Nat)
  | equal (place other : Nat)
  deriving DecidableEq, Repr

/-- Whether a condition holds of operands; it does not hold of operands that are not there. -/
def Condition.holds {K : Type} [Arithmetic K] (c : Condition) (operands : List (Node K)) : Bool :=
  let unary (i : Nat) (p : Node K → Bool) := operands[i]?.any p
  let binary (i j : Nat) (p : Node K → Node K → Bool) :=
    operands[i]?.any fun a => operands[j]?.any fun b => p a b
  match c with
  | .always => true
  | .zero i => unary i Node.isZero
  | .one i => unary i Node.isOne
  | .constant i => unary i Node.isConstant
  | .leaf i => unary i Node.isLeaf
  | .applies i name => unary i (·.applies name)
  | .same i j => binary i j Node.same
  | .equal i j => binary i j Node.isEqual

/-! ## References -/

/-- What a term of a `deriv` hook may refer to. -/
inductive DerivativeReference where
  | operand (place : Nat)
  | derivative (place : Nat)
  | variable
  deriving DecidableEq, Repr

/-- What a term of a `gradient` hook may refer to. -/
inductive GradientReference where
  | operand (place : Nat)
  | incoming
  deriving DecidableEq, Repr

/-- A piece of source text. -/
inductive Fragment where
  | text (content : String)
  | operand (place : Nat)
  | join (separator : String)
  deriving DecidableEq, Repr

/-- The text of fragments over the texts of operands. -/
def Fragment.render (fragments : List Fragment) (operands : List String) : String :=
  String.join <| fragments.map fun
    | .text content => content
    | .operand i => operands.getD i ""
    | .join separator => separator.intercalate operands

/-! ## Declarations -/

/-- Terms under conditions, of which the first that holds decides. -/
abbrev Cases (K : Type) := List (Condition × Term K Nat)

structure Declaration (K : Type) where
  signature : Signature
  optimize : Option (Cases K) := none
  expand : Option (Cases K) := none
  replace : Option (Term K Nat) := none
  deriv : Option (Term K DerivativeReference) := none
  /-- Contributions to operands, by their places and in order. -/
  gradient : Option (List (Nat × Term K GradientReference)) := none
  fold : Option (Literal.Operation × Shape) := none
  render : Target → Option (List Fragment) := fun _ => none

namespace Declaration

variable {K ρ σ : Type} [Arithmetic K]

/-- The operand at a place. -/
def operandAt (name : String) (operands : List (Node K)) (place : Nat) :
    Recipe K ρ σ (Node K) :=
  match operands[place]? with
  | some n => .done n
  | none => .refuseOperands name operands

/-- Builds the term of the first condition that holds. -/
def decide (name : String) (cases : Cases K) (operands : List (Node K)) :
    Rule K (Option (Node K)) :=
  match cases.find? (·.1.holds operands) with
  | some (_, t) => some <$> t.recipe (operandAt name operands)
  | none => .done none

/-- What a reference in a `deriv` hook stands for; a derivative is asked for when it is reached. -/
def resolveDerivative (name : String) (wrt : Node K) (operands : List (Node K)) :
    DerivativeReference → Recipe K (Node K) (Node K) (Node K)
  | .operand i => operandAt name operands i
  | .derivative i => do
      let n ← operandAt name operands i
      .request n
  | .variable => .done wrt

def resolveGradient (name : String) (incoming : Node K) (operands : List (Node K)) :
    GradientReference → Recipe K (Contribution K) Unit (Node K)
  | .operand i => operandAt name operands i
  | .incoming => .done incoming

/-- Builds and routes contributions one after the other. -/
def contributions (name : String) (incoming : Node K) (operands : List (Node K)) :
    List (Nat × Term K GradientReference) → Recipe K (Contribution K) Unit Unit
  | [] => .done ()
  | (i, t) :: rest => do
      let gradient ← t.recipe (resolveGradient name incoming operands)
      let operand ← operandAt name operands i
      let _ ← .request ⟨operand, gradient⟩
      contributions name incoming operands rest

def definition (d : Declaration K) : Definition K :=
  let name := d.signature.name
  { signature := d.signature
    hooks :=
      { optimize := d.optimize.map (decide name)
        expand := d.expand.map (decide name)
        replace := d.replace.map fun t operands => t.recipe (operandAt name operands)
        deriv := d.deriv.map fun t wrt operands =>
          t.recipe (resolveDerivative name wrt operands)
        gradient := d.gradient.map fun cs incoming operands =>
          contributions name incoming operands cs
        fold := d.fold.map fun (operation, s) => operation.apply s
        render := fun target => (d.render target).map Fragment.render } }

end Declaration

end SymbolicLinalg
