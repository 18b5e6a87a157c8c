import SymbolicLinalg.Node

/-!
# Recipe — what a hook does, as data

A hook of an operator may create constants and leaves and apply operators by name.  Which operator a
name denotes, and what that operator simplifies to, depends on the registry in use, so a hook does
not build nodes itself: it answers with a recipe, and the pass that asked carries the recipe out.

A recipe may also put requests to the pass: a derivative asks for the derivatives of operands, a
gradient routes contributions to them.  `ρ` is the type of the requests and `σ` that of the answers;
recipes that only build use `Empty` for the requests.

`Recipe.run` carries a recipe out in any monad, given what a construction, a request and a refusal
mean there.
-/

namespace SymbolicLinalg

/-- One way to make a node. -/
inductive Construction (K : Type) where
  | constant (value : Literal K)
  | leaf (name : String) (shape : Shape)
  /-- The operator is determined by its name and the shapes of the operands. -/
  | apply (name : String) (operands : List (Node K))
  /-- As `apply`, where the shape of the result is needed to tell operators apart. -/
  | applyFor (result : Shape) (name : String) (operands : List (Node K))

inductive Recipe (K ρ σ α : Type) where
  | done (value : α)
  | refuse (e : Error)
  | make (c : Construction K) (next : Node K → Recipe K ρ σ α)
  | ask (request : ρ) (next : σ → Recipe K ρ σ α)

namespace Recipe

variable {K ρ σ α β : Type}

def bind : Recipe K ρ σ α → (α → Recipe K ρ σ β) → Recipe K ρ σ β
  | .done value, f => f value
  | .refuse e, _ => .refuse e
  | .make c next, f => .make c fun n => (next n).bind f
  | .ask request next, f => .ask request fun answer => (next answer).bind f

instance : Monad (Recipe K ρ σ) where
  pure := .done
  bind := bind

/-- Carries a recipe out. -/
def run {m : Type → Type} [Monad m] (make : Construction K → m (Node K)) (answer : ρ → m σ)
    (refuse : Error → m α) : Recipe K ρ σ α → m α
  | .done value => pure value
  | .refuse e => refuse e
  | .make c next => do
      let n ← make c
      (next n).run make answer refuse
  | .ask request next => do
      let reply ← answer request
      (next reply).run make answer refuse

/-! ## Steps -/

def build (c : Construction K) : Recipe K ρ σ (Node K) :=
  .make c .done

def constant (value : Literal K) : Recipe K ρ σ (Node K) :=
  build (.constant value)

def apply (name : String) (operands : List (Node K)) : Recipe K ρ σ (Node K) :=
  build (.apply name operands)

def request (r : ρ) : Recipe K ρ σ σ :=
  .ask r .done

/-- Refuses a list of operands that no operator of the name takes. -/
def refuseOperands (name : String) (operands : List (Node K)) : Recipe K ρ σ α :=
  .refuse (.noOperator name (operands.map Node.shape) [])

/-- Carries one recipe out for each element, from left to right. -/
def each (f : α → Recipe K ρ σ β) : List α → Recipe K ρ σ (List β)
  | [] => .done []
  | a :: rest => do
      let b ← f a
      let others ← each f rest
      return b :: others

/-! ## Applications of the standard operators -/

def scalar (x : K) : Recipe K ρ σ (Node K) :=
  constant (.scalar x)

def add (a b : Node K) : Recipe K ρ σ (Node K) :=
  apply "+" [a, b]

def sub (a b : Node K) : Recipe K ρ σ (Node K) :=
  apply "-" [a, b]

def mul (a b : Node K) : Recipe K ρ σ (Node K) :=
  apply "*" [a, b]

def div (a b : Node K) : Recipe K ρ σ (Node K) :=
  apply "/" [a, b]

def neg (a : Node K) : Recipe K ρ σ (Node K) :=
  apply "-" [a]

def cos (a : Node K) : Recipe K ρ σ (Node K) :=
  apply "cos" [a]

def sin (a : Node K) : Recipe K ρ σ (Node K) :=
  apply "sin" [a]

def trans (a : Node K) : Recipe K ρ σ (Node K) :=
  apply "trans" [a]

def dot (a b : Node K) : Recipe K ρ σ (Node K) :=
  apply "dot" [a, b]

def outer (a b : Node K) : Recipe K ρ σ (Node K) :=
  apply "outer" [a, b]

/-- The name of the operator that extracts a component: `(i)` for vectors, `(r,c)` for matrices. -/
def selectorName (s : Shape) (position : Nat) : String :=
  if s.isMatrix then
    "(" ++ toString (s.rowOf position) ++ "," ++ toString (s.colOf position) ++ ")"
  else
    "(" ++ toString position ++ ")"

def select (a : Node K) (position : Nat) : Recipe K ρ σ (Node K) :=
  apply (selectorName a.shape position) [a]

/-- A vector or matrix from its components, by the constructor named after the shape. -/
def assemble (s : Shape) (components : List (Node K)) : Recipe K ρ σ (Node K) :=
  apply s.name components

end Recipe

end SymbolicLinalg
