import SymbolicLinalg.Node
import SymbolicLinalg.Numeral
import SymbolicLinalg.Text.Alphanumeric

/-!
# Text — how an expression reads

Scalars are written as numbers and other constants as their components in brackets.  An operator
whose name holds no letter and no digit stands before its single operand or between its two; an
operator whose name opens a parenthesis, such as `(0,3)`, follows its single operand; every other
application is written as a call.
-/

namespace SymbolicLinalg

namespace Literal

variable {K : Type} [Arithmetic K] [Numeral K]

def text (value : Literal K) : String :=
  match value.scalar? with
  | some x => Numeral.text x
  | none =>
      value.shape.name ++ "[" ++ ", ".intercalate (value.components.map Numeral.text) ++ "]"

end Literal

namespace Text

/-- Whether a name opens a parenthesis. -/
def isSelector (name : String) : Bool :=
  name.toList.head? == some '('

/-- Whether a name is made of symbols only. -/
def isSymbols (name : String) : Bool :=
  !name.isEmpty && !isSelector name && !name.toList.any isAlphanumeric

/-- The text of an application, given the texts of its operands. -/
def application (name : String) (operands : List String) : String :=
  match operands with
  | [a] =>
      if isSelector name then a ++ name
      else if isSymbols name then "(" ++ name ++ a ++ ")"
      else name ++ "(" ++ a ++ ")"
  | [a, b] =>
      if isSymbols name then "(" ++ a ++ " " ++ name ++ " " ++ b ++ ")"
      else name ++ "(" ++ a ++ ", " ++ b ++ ")"
  | _ => name ++ "(" ++ ", ".intercalate operands ++ ")"

end Text

namespace Node

variable {K : Type} [Arithmetic K] [Numeral K]

mutual

def text (n : Node K) : String :=
  match n with
  | .constant _ value => value.text
  | .leaf _ name _ => name
  | .application _ operator operands => Text.application operator.name (texts operands)

def texts (nodes : List (Node K)) : List String :=
  match nodes with
  | [] => []
  | n :: rest => n.text :: texts rest

end

/-- The text of a node with its shape. -/
def describe (n : Node K) : String :=
  n.text ++ ": " ++ n.shape.name

end Node

end SymbolicLinalg
