import SymbolicLinalg.Recipe

/-!
# Term — expressions as they are written down

A term is a tree of constants, references and applications by name.  What a reference stands for
depends on where the term is written, so its type `ν` is a parameter.  Building a term makes a new
node for every constant and every application, operands first and from left to right.
-/

namespace SymbolicLinalg

inductive Term (K ν : Type) where
  | reference (name : ν)
  | scalar (value : K)
  | zero (shape : Shape)
  | one (shape : Shape)
  | literal (shape : Shape) (components : List K)
  | apply (name : String) (operands : List (Term K ν))
  | applyFor (result : Shape) (name : String) (operands : List (Term K ν))

namespace Term

variable {K ν ρ σ : Type} [Arithmetic K]

mutual

/-- The recipe for a term, given what its references stand for. -/
def recipe (resolve : ν → Recipe K ρ σ (Node K)) (t : Term K ν) : Recipe K ρ σ (Node K) :=
  match t with
  | .reference name => resolve name
  | .scalar value => .scalar value
  | .zero shape => .constant (.zero shape)
  | .one shape => .constant (.one shape)
  | .literal shape components =>
      match Literal.ofComponents shape components with
      | .ok value => .constant value
      | .error e => .refuse e
  | .apply name operands => do
      let nodes ← recipes resolve operands
      .apply name nodes
  | .applyFor result name operands => do
      let nodes ← recipes resolve operands
      .build (.applyFor result name nodes)

def recipes (resolve : ν → Recipe K ρ σ (Node K)) (terms : List (Term K ν)) :
    Recipe K ρ σ (List (Node K)) :=
  match terms with
  | [] => .done []
  | t :: rest => do
      let n ← recipe resolve t
      let others ← recipes resolve rest
      return n :: others

end

end Term

end SymbolicLinalg
