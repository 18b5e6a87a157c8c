import SymbolicLinalg.Registry

/-!
# Hooks — building blocks of the standard operators

The definitions here turn a rule about a fixed number of operands into a hook, combine folding with
further simplification, and write the usual forms of source text.
-/

namespace SymbolicLinalg

namespace Standard

variable {K ρ σ α : Type}

/-! ## A fixed number of operands -/

/-- A hook of an operator of one operand. -/
def onOne (name : String) (f : Node K → Recipe K ρ σ α) : List (Node K) → Recipe K ρ σ α
  | [a] => f a
  | operands => .refuseOperands name operands

/-- A hook of an operator of two operands. -/
def onTwo (name : String) (f : Node K → Node K → Recipe K ρ σ α) :
    List (Node K) → Recipe K ρ σ α
  | [a, b] => f a b
  | operands => .refuseOperands name operands

/-- The first operand of a node that applies an operator of a name, and must have one. -/
def firstOperand (name : String) (a : Node K) : Recipe K ρ σ (Node K) :=
  match a.operands with
  | n :: _ => .done n
  | [] => .refuseOperands name []

/-- What holds of refusals and of the rule for one operand holds of the hook. -/
theorem onOne_cases {P : Recipe K ρ σ α → Prop} {Q : Node K → Prop} {name : String}
    {f : Node K → Recipe K ρ σ α} {operands : List (Node K)} (refused : ∀ e, P (.refuse e))
    (all : ∀ m ∈ operands, Q m) (h : ∀ a, Q a → P (f a)) : P (onOne name f operands) := by
  rw [onOne.eq_def]
  split
  · exact h _ (all _ (by simp))
  · exact refused _

theorem onTwo_cases {P : Recipe K ρ σ α → Prop} {Q : Node K → Prop} {name : String}
    {f : Node K → Node K → Recipe K ρ σ α} {operands : List (Node K)}
    (refused : ∀ e, P (.refuse e)) (all : ∀ m ∈ operands, Q m) (h : ∀ a b, Q a → Q b → P (f a b)) :
    P (onTwo name f operands) := by
  rw [onTwo.eq_def]
  split
  · exact h _ _ (all _ (by simp)) (all _ (by simp))
  · exact refused _

/-! ## Folding -/

section

variable [Arithmetic K]

/-- Computes with one literal. -/
def foldOne (s : Shape) (f : Literal K → Literal K) : List (Literal K) → Literal K
  | [a] => f a
  | _ => .zero s

/-- Computes with two literals. -/
def foldTwo (s : Shape) (f : Literal K → Literal K → Literal K) : List (Literal K) → Literal K
  | [a, b] => f a b
  | _ => .zero s

/-- The number that stands at a place of a list of scalar literals. -/
def scalarAt (values : List (Literal K)) (place : Nat) : K :=
  (values.getD place (.zero .scalar)).component 0

end

/-- Folds the operands if all of them are constants, and goes by another rule otherwise. -/
def foldingFirst (fold : List (Literal K) → Literal K)
    (rule : List (Node K) → Rule K (Option (Node K))) (operands : List (Node K)) :
    Rule K (Option (Node K)) :=
  match Node.literals? operands with
  | some values => do
      let n ← Recipe.constant (fold values)
      return some n
  | none => rule operands

/-- Folds the operands if all of them are constants. -/
def foldingOnly (fold : List (Literal K) → Literal K) :
    List (Node K) → Rule K (Option (Node K)) :=
  foldingFirst fold fun _ => .done none

/-! ## Differentiation -/

/-- Asks for the derivative of a node. -/
def derive (n : Node K) : Recipe K (Node K) (Node K) (Node K) :=
  .request n

/-- Contributes a gradient to an operand. -/
def contribute (operand gradient : Node K) : Recipe K (Contribution K) Unit Unit :=
  .request ⟨operand, gradient⟩

/-- The derivative of a product in which the right factor is differentiated first. -/
def productRule (a b : Node K) : Recipe K (Node K) (Node K) (Node K) := do
  let da ← derive a
  let db ← derive b
  let left ← .mul a db
  let right ← .mul da b
  .add left right

/-! ## Source text -/

/-- The operands with a symbol between them, in parentheses. -/
def between (symbol : String) (operands : List String) : String :=
  "(" ++ (" " ++ symbol ++ " ").intercalate operands ++ ")"

/-- A call of a function. -/
def call (function : String) (operands : List String) : String :=
  function ++ "(" ++ ", ".intercalate operands ++ ")"

/-- A text that is made of a single operand. -/
def around (opening closing : String) (operands : List String) : String :=
  opening ++ ", ".intercalate operands ++ closing

/-- A renderer for each target. -/
def rendering (c js : List String → String) : Target → Option (List String → String)
  | .c => some c
  | .js => some js

/-- How the runtime of a target spells a shape in the names of its functions. -/
def helperSuffix : Shape → String
  | .scalar | .genericScalar => "double"
  | .vec3 => "vec3"
  | .vec4 => "vec4"
  | .mat33 => "mat33"
  | .mat44 => "mat44"

/-- The runtime function of an operation on operands of the given shapes. -/
def helper (operation : String) (shapes : List Shape) : String :=
  "Geom3D." ++ "_".intercalate (operation :: shapes.map helperSuffix)

end Standard

end SymbolicLinalg
