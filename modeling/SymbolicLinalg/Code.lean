import SymbolicLinalg.Build
import SymbolicLinalg.Node.PostOrder

/-!
# Code — expressions as source text

A leaf is rendered as its name, a constant as a literal of the target, and an application by the
renderer of its operator, over the texts of its operands.  Every renderer puts its result into
parentheses or brackets, so the text never depends on rules of precedence.

The distinct nodes are rendered in post-order and their texts kept, so a shared node is rendered
once although its text may appear many times.
-/

namespace SymbolicLinalg

namespace Target

/-- A vector or matrix of the given components. -/
def container (target : Target) (s : Shape) (items : List String) : String :=
  match target with
  | .c => s.name ++ " \x7b " ++ ", ".intercalate items ++ " \x7d"
  | .js => "Float64Array.of(" ++ ", ".intercalate items ++ ")"

/-- A constant. -/
def literal {K : Type} [Arithmetic K] [Numeral K] (target : Target) (value : Literal K) : String :=
  match value.scalar? with
  | some x => Numeral.code target x
  | none => target.container value.shape (value.components.map (Numeral.code target))

/-- The declaration of a named value. -/
def declaration (target : Target) (s : Shape) (name value : String) : String :=
  match target with
  | .c => (if s.isScalar then "double" else s.name) ++ " " ++ name ++ " = " ++ value ++ ";"
  | .js => "const " ++ name ++ " = " ++ value ++ ";"

end Target

/-- The texts of the nodes rendered so far. -/
abbrev Texts := Std.HashMap NodeId String

namespace Registry

variable {K : Type} [Arithmetic K] [Numeral K]

/-- The text of an operand. -/
def operandText (texts : Texts) (n : Node K) : Except Fault String :=
  match texts[n.id]? with
  | some text => .ok text
  | none => .error (.unrendered n.id)

/-- The text of one node, given the texts of its operands. -/
def nodeText (r : Registry K) (target : Target) (texts : Texts) (n : Node K) :
    Except Fault String :=
  match n with
  | .constant _ value => .ok (target.literal value)
  | .leaf _ name _ => .ok name
  | .application _ s operands =>
      match (r.hooks s).render target with
      | none => .error (.error (.missingRenderer s target.name))
      | some renderer => do
          let items ← operands.mapM (operandText texts)
          return renderer items

/-- The texts of nodes in post-order, and the text of the last one. -/
def lastText (r : Registry K) (target : Target) :
    List (Node K) → Texts → String → Except Fault String
  | [], _, text => .ok text
  | n :: rest, texts, _ => do
      let text ← r.nodeText target texts n
      lastText r target rest (texts.insert n.id text) text

/-- The source text of an expression. -/
def render (r : Registry K) (target : Target) (n : Node K) : Except Fault String :=
  r.lastText target n.postOrder ∅ ""

/-- Renders an expression and records it. -/
def renderRecorded (r : Registry K) (target : Target) (n : Node K) : Work K String := do
  let text ← liftM (r.render target n)
  Work.record (.rendered text.utf8ByteSize target n.shape)
  return text

end Registry

end SymbolicLinalg
