import SymbolicLinalg.Literal

/-!
# Node — immutable, shareable expressions

A node is a constant, a named leaf, or an operator applied to operand nodes.  Every node carries the
identity it was made with, so that one node can be the operand of many others: an expression is a
directed acyclic graph, and the passes do their bookkeeping by identity.

Two comparisons are in use.  `Node.same` compares identities.  `Node.isEqual` is structural, except
that a leaf equals only itself: two leaves of one name are different variables.

An application carries the signature of its operator.  What the operator does is looked up in the
registry under that signature.
-/

namespace SymbolicLinalg

/-- The identity of a node. -/
abbrev NodeId := Nat

inductive Node (K : Type) where
  | constant (id : NodeId) (value : Literal K)
  | leaf (id : NodeId) (name : String) (shape : Shape)
  | application (id : NodeId) (operator : Signature) (operands : List (Node K))

namespace Node

variable {K : Type}

/-- Induction on expressions: an application may assume the statement of its operands. -/
theorem induct {motive : Node K → Prop}
    (constant : ∀ id value, motive (.constant id value))
    (leaf : ∀ id name shape, motive (.leaf id name shape))
    (application : ∀ id operator operands, (∀ x ∈ operands, motive x) →
      motive (.application id operator operands))
    (n : Node K) : motive n :=
  Node.rec (motive_1 := motive) (motive_2 := fun operands => ∀ x ∈ operands, motive x)
    constant leaf application
    (fun _ h => absurd h List.not_mem_nil)
    (fun _ _ first others x h => by
      rcases List.mem_cons.1 h with rfl | h
      · exact first
      · exact others x h)
    n

/-! ## Parts -/

def id : Node K → NodeId
  | .constant id _ => id
  | .leaf id _ _ => id
  | .application id _ _ => id

def shape : Node K → Shape
  | .constant _ value => value.shape
  | .leaf _ _ shape => shape
  | .application _ operator _ => operator.result

/-- The operands of an application; constants and leaves have none. -/
def operands : Node K → List (Node K)
  | .application _ _ operands => operands
  | _ => []

@[simp] theorem id_constant (i : NodeId) (v : Literal K) : (constant i v).id = i := rfl

@[simp] theorem id_leaf (i : NodeId) (name : String) (s : Shape) :
    (leaf i name s : Node K).id = i := rfl

@[simp] theorem id_application (i : NodeId) (s : Signature) (ns : List (Node K)) :
    (application i s ns).id = i := rfl

@[simp] theorem shape_constant (i : NodeId) (v : Literal K) : (constant i v).shape = v.shape := rfl

@[simp] theorem shape_leaf (i : NodeId) (name : String) (s : Shape) :
    (leaf i name s : Node K).shape = s := rfl

@[simp] theorem shape_application (i : NodeId) (s : Signature) (ns : List (Node K)) :
    (application i s ns).shape = s.result := rfl

@[simp] theorem operands_constant (i : NodeId) (v : Literal K) : (constant i v).operands = [] := rfl

@[simp] theorem operands_leaf (i : NodeId) (name : String) (s : Shape) :
    (leaf i name s : Node K).operands = [] := rfl

@[simp] theorem operands_application (i : NodeId) (s : Signature) (ns : List (Node K)) :
    (application i s ns).operands = ns := rfl

def operator? : Node K → Option Signature
  | .application _ operator _ => some operator
  | _ => none

def literal? : Node K → Option (Literal K)
  | .constant _ value => some value
  | _ => none

def leafName? : Node K → Option String
  | .leaf _ name _ => some name
  | _ => none

def isConstant : Node K → Bool
  | .constant _ _ => true
  | _ => false

def isLeaf : Node K → Bool
  | .leaf _ _ _ => true
  | _ => false

def isApplication : Node K → Bool
  | .application _ _ _ => true
  | _ => false

/-- Whether the node applies an operator of the given name. -/
def applies (n : Node K) (name : String) : Bool :=
  match n with
  | .application _ operator _ => operator.name == name
  | _ => false

/-- Whether the two are one node. -/
def same (a b : Node K) : Bool :=
  a.id == b.id

/-- Whether two lists hold the same nodes, place by place. -/
def allSame : List (Node K) → List (Node K) → Bool
  | a :: as, b :: bs => a.same b && allSame as bs
  | _, _ => true

/-- The literals of a list of constants. -/
def literals? (nodes : List (Node K)) : Option (List (Literal K)) :=
  nodes.mapM literal?

/-! ## Values -/

variable [Arithmetic K]

/-- The value of a constant that is a single real number. -/
def scalar? (n : Node K) : Option K :=
  n.literal?.bind Literal.scalar?

/-- Whether the node is the zero constant of its shape. -/
def isZero : Node K → Bool
  | .constant _ value => value.isZero
  | _ => false

/-- Whether the node is the identity constant of its shape. -/
def isOne : Node K → Bool
  | .constant _ value => value.isOne
  | _ => false

mutual

def isEqual (a b : Node K) : Bool :=
  a.same b ||
    match a, b with
    | .constant _ v, .constant _ w => v.isEqual w
    | .application _ f as, .application _ g bs => f == g && areEqual as bs
    | _, _ => false

def areEqual (as bs : List (Node K)) : Bool :=
  match as, bs with
  | [], [] => true
  | a :: as, b :: bs => a.isEqual b && areEqual as bs
  | _, _ => false

end

end Node

end SymbolicLinalg
