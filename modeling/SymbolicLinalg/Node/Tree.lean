import SymbolicLinalg.Node

/-!
# Tree — an expression without its sharing

The tree of a node forgets the identities of constants and applications and keeps those of leaves,
which tell variables apart.  Two nodes with one tree are the same expression, however their graphs
share subexpressions.
-/

namespace SymbolicLinalg

inductive Tree (K : Type) where
  | constant (value : Literal K)
  | leaf (id : NodeId) (name : String) (shape : Shape)
  | application (operator : Signature) (operands : List (Tree K))

namespace Node

variable {K : Type}

mutual

def tree (n : Node K) : Tree K :=
  match n with
  | .constant _ value => .constant value
  | .leaf id name shape => .leaf id name shape
  | .application _ operator operands => .application operator (trees operands)

def trees (nodes : List (Node K)) : List (Tree K) :=
  match nodes with
  | [] => []
  | n :: rest => tree n :: trees rest

end

theorem trees_eq_map (nodes : List (Node K)) : trees nodes = nodes.map tree := by
  induction nodes with
  | nil => rfl
  | cons n rest ih => simp [trees, ih]

theorem tree_application (id : NodeId) (s : Signature) (operands : List (Node K)) :
    (application id s operands).tree = .application s (operands.map tree) := by
  simp [tree, trees_eq_map]

end Node

namespace Tree

variable {K : Type}

def shape : Tree K → Shape
  | .constant value => value.shape
  | .leaf _ _ shape => shape
  | .application operator _ => operator.result

end Tree

theorem Node.shape_tree {K : Type} (n : Node K) : n.tree.shape = n.shape := by
  cases n <;> rfl

end SymbolicLinalg
