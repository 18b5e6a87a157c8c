import SymbolicLinalg.Node
import SymbolicLinalg.Standard

/-!
# Value — what an expression stands for

An assignment gives every leaf a literal.  The value of an expression under an assignment is
computed from the operands up: every operator has a meaning on literals, which for the standard
operators is their `fold` hook.  `fromHomo`, which cannot be folded, means the division of the first
three components by the fourth.

The constants of an expression may be read in another type of components than the one they are
written in, by a function `read` on literals.
-/

namespace SymbolicLinalg

variable {K L : Type}

/-- A literal for each leaf, by identity. -/
abbrev Assignment (K : Type) := NodeId → Literal K

/-- The meaning of operators on literals. -/
abbrev Meaning (K : Type) := Signature → List (Literal K) → Literal K

namespace Node

mutual

def valueIn (read : Literal K → Literal L) (meaning : Meaning L) (ρ : Assignment L)
    (n : Node K) : Literal L :=
  match n with
  | .constant _ value => read value
  | .leaf id _ _ => ρ id
  | .application _ s operands => meaning s (valuesIn read meaning ρ operands)

def valuesIn (read : Literal K → Literal L) (meaning : Meaning L) (ρ : Assignment L)
    (nodes : List (Node K)) : List (Literal L) :=
  match nodes with
  | [] => []
  | n :: rest => valueIn read meaning ρ n :: valuesIn read meaning ρ rest

end

theorem valuesIn_eq_map (read : Literal K → Literal L) (meaning : Meaning L) (ρ : Assignment L)
    (nodes : List (Node K)) :
    valuesIn read meaning ρ nodes = nodes.map (valueIn read meaning ρ) := by
  induction nodes with
  | nil => rfl
  | cons n rest ih => simp [valuesIn, ih]

/-- The value of an expression in the components it is written in. -/
def value (meaning : Meaning K) (ρ : Assignment K) (n : Node K) : Literal K :=
  n.valueIn (fun literal => literal) meaning ρ

theorem value_application (meaning : Meaning K) (ρ : Assignment K) (id : NodeId) (s : Signature)
    (operands : List (Node K)) :
    value meaning ρ (.application id s operands) = meaning s (operands.map (value meaning ρ)) := by
  simp only [value, valueIn, valuesIn_eq_map]
  rfl

end Node

namespace Standard

variable [Arithmetic K] [Numeral K]

/-- The first three components divided by the fourth. -/
def dehomogenized (p : Literal K) : Literal K :=
  Literal.ofFn .vec3 fun i => Arithmetic.div (p.component i) (p.component 3)

/-- What the standard operators mean. -/
def meaning : Meaning K := fun s values =>
  match ((Registry.standard : Registry K).hooks s).fold with
  | some fold => fold values
  | none => dehomogenized (values.getD 0 (.zero .vec4))

end Standard

end SymbolicLinalg
