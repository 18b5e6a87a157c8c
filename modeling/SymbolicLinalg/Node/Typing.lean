import SymbolicLinalg.Node.Reach
import SymbolicLinalg.Registry

/-!
# Typing — expressions whose parts fit together

A constant is well typed if it has as many components as its shape, a leaf always is, and an
application if its operator is known and its operands are well typed and of the shapes that the
operator takes.
-/

namespace SymbolicLinalg

variable {K : Type}

/-- An operator of the registry. -/
def Registry.Knows (r : Registry K) (s : Signature) : Prop :=
  ∃ d ∈ r.definitions, d.signature = s

/-- The literal has the number of components of its shape. -/
def Literal.Complete (value : Literal K) : Prop :=
  value.components.length = value.shape.size

namespace Node

/-- Every application in the graph has operands of the shapes of its signature. -/
def Fitting (n : Node K) : Prop :=
  ∀ id s operands, n.Reaches (.application id s operands) → operands.map shape = s.operands

inductive WellTyped (known : Signature → Prop) : Node K → Prop where
  | constant (id : NodeId) {value : Literal K} :
      value.Complete → WellTyped known (.constant id value)
  | leaf (id : NodeId) (name : String) (shape : Shape) : WellTyped known (.leaf id name shape)
  | application (id : NodeId) {s : Signature} {operands : List (Node K)} :
      known s → operands.map shape = s.operands → (∀ m ∈ operands, WellTyped known m) →
      WellTyped known (.application id s operands)

namespace WellTyped

variable {known : Signature → Prop} {n m : Node K}

theorem of_mem_operands (h : WellTyped known n) (operand : m ∈ n.operands) :
    WellTyped known m := by
  cases h with
  | constant _ _ => exact absurd operand List.not_mem_nil
  | leaf _ _ _ => exact absurd operand List.not_mem_nil
  | application _ _ _ operands => exact operands m operand

theorem of_reaches (h : WellTyped known n) (below : n.Reaches m) : WellTyped known m := by
  induction below with
  | refl _ => exact h
  | step operand _ ih => exact ih (h.of_mem_operands operand)

theorem fitting (h : WellTyped known n) : n.Fitting := by
  intro id s operands below
  cases h.of_reaches below with
  | application _ _ shapes _ => exact shapes

end WellTyped

end Node

end SymbolicLinalg
