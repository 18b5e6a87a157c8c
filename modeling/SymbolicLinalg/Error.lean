import SymbolicLinalg.Signature
import SymbolicLinalg.Text.Plain

/-!
# Error — what can go wrong, and how it is reported

An error has a cause and points into a text by spans.  The text is mostly the signature of the
operator at fault: applying `*` to a `Vec3` and a `Mat44` is reported against `*(Vec3, Mat44)`, with
one span on the name and one on the operand list.

The first part lists the causes and their wording.  The second part holds one constructor for each
situation that raises an error; these decide the text and the spans.
-/

namespace SymbolicLinalg

/-- Why an operation was refused. -/
inductive Cause where
  | duplicateDefinition (signature : String)
  | unknownOperator (name : String) (operands : List Shape) (suggestions : List String)
  | ambiguousOperator (name : String) (operands : List Shape) (candidates : List String)
  | unsupportedOperation (signature hook pass : String)
  | typeMismatch (context : String) (expected given : Shape)
  | unsupportedTarget (signature target : String)
  | unknownTarget (name : String) (available : List String)
  | invalidLiteral (shape : Shape) (expected given : Nat)
  | expectedLeaf (role : String)
  deriving DecidableEq, Repr

namespace Cause

def quoted (text : String) : String :=
  "`" ++ text ++ "`"

/-- The one-line message. -/
def message : Cause → String
  | .duplicateDefinition signature => "operator " ++ quoted signature ++ " is already defined"
  | .unknownOperator name operands _ =>
      "no " ++ quoted name ++ " operator takes operands of types " ++ quoted (Shape.tuple operands)
  | .ambiguousOperator name operands _ =>
      "the " ++ quoted name ++ " operator is ambiguous for operands " ++
        quoted (Shape.tuple operands)
  | .unsupportedOperation signature _ pass =>
      "cannot compute the " ++ pass ++ " of " ++ quoted signature
  | .typeMismatch _ expected given =>
      "expected a value of type " ++ quoted expected.name ++ ", found " ++ quoted given.name
  | .unsupportedTarget signature target =>
      "the " ++ quoted signature ++ " operator cannot be rendered to " ++ target
  | .unknownTarget name _ => "unknown target: " ++ quoted name
  | .invalidLiteral shape expected given =>
      "a " ++ quoted shape.name ++ " literal needs " ++ toString expected ++ " components, but " ++
        toString given ++ " were given"
  | .expectedLeaf role => "the " ++ role ++ " must be a leaf"

/-- What is said at the spans, first span first. -/
def labels : Cause → List String
  | .duplicateDefinition _ => ["this signature is already registered"]
  | .unknownOperator _ _ _ => ["this operator", "these operand types"]
  | .ambiguousOperator _ _ _ => ["this operator"]
  | .unsupportedOperation _ hook _ => ["this operator has no " ++ quoted hook ++ " hook"]
  | .typeMismatch _ expected _ => ["this must have type " ++ quoted expected.name]
  | .unsupportedTarget _ target => ["this operator has no " ++ quoted target ++ " renderer"]
  | .unknownTarget _ _ => ["this target"]
  | .invalidLiteral _ _ _ => ["this literal"]
  | .expectedLeaf _ => ["this is not a leaf"]

def help : Cause → Option String
  | .duplicateDefinition _ =>
      some ("each combination of result type, operator name and operand types may only be " ++
        "registered once")
  | .unknownOperator _ _ [] =>
      some "operators must be registered for the exact operand types they are applied to"
  | .unknownOperator _ _ [suggestion] => some ("did you mean " ++ quoted suggestion ++ "?")
  | .unknownOperator _ _ suggestions =>
      some ("did you mean one of these? " ++ ", ".intercalate (suggestions.map quoted))
  | .ambiguousOperator _ _ _ => some "apply the operator with an explicit result type"
  | .unsupportedOperation _ hook _ =>
      some ("register a " ++ quoted hook ++
        " hook for this operator, or lower the expression first")
  | .typeMismatch _ _ _ => none
  | .unsupportedTarget _ _ =>
      some "lower the expression first, or register a renderer for this target"
  | .unknownTarget _ available =>
      some ("available targets are: " ++ ", ".intercalate available)
  | .invalidLiteral _ _ _ => some "matrix literals are flattened column-major"
  | .expectedLeaf _ => some "differentiation targets are named leaves, compared by identity"

def note : Cause → Option String
  | .ambiguousOperator _ _ candidates => some ("candidates: " ++ ", ".intercalate candidates)
  | .typeMismatch context _ _ => some context
  | _ => none

end Cause

/-- A cause, the text it is reported against, and the places in that text. -/
structure Error where
  source : String
  spans : List Span
  cause : Cause
  deriving DecidableEq, Repr

namespace Error

def message (e : Error) : String :=
  e.cause.message

/-- How a report begins. -/
def header (e : Error) : String :=
  "Error: " ++ e.message

/-- Each label stands at one span; labels or spans without a partner are not shown. -/
def labels (e : Error) : List String :=
  (e.cause.labels.zip e.spans).map fun (label, _) => Text.uncoloured label

def help (e : Error) : Option String :=
  e.cause.help.map Text.uncoloured

def note (e : Error) : Option String :=
  e.cause.note.map Text.uncoloured

/-! ## The situations that raise an error -/

/-- An operator is registered twice. -/
def alreadyRegistered (s : Signature) : Error :=
  let p := Placement.ofSignature s
  ⟨p.text, [Span.whole p.text], .duplicateDefinition p.text⟩

/-- No operator has the name and takes the operands. -/
def noOperator (name : String) (operands : List Shape) (suggestions : List String) : Error :=
  let p := Placement.of none name operands
  ⟨p.text, [p.name, p.operandList], .unknownOperator name operands suggestions⟩

/-- Operators with several results have the name and take the operands. -/
def severalResults (name : String) (operands : List Shape) (candidates : List String) : Error :=
  let p := Placement.of none name operands
  ⟨p.text, [p.name], .ambiguousOperator name operands candidates⟩

/-- An operator lacks the hook that a pass needs. -/
def missingHook (s : Signature) (hook pass : String) : Error :=
  let p := Placement.ofSignature s
  ⟨p.text, [p.name], .unsupportedOperation p.text hook pass⟩

/-- The operand at a position has the wrong shape. -/
def wrongOperand (s : Signature) (position : Nat) (given : Shape) : Error :=
  let p := Placement.ofSignature s
  ⟨p.text, [p.operands.getD position p.operandList],
    -- operands are counted from one in messages
    .typeMismatch ("operand #" ++ toString (position + 1) ++ " of " ++ Cause.quoted s.text)
      (s.operands.getD position given) given⟩

/-- A hook of an operator answered with the wrong shape. -/
def wrongResult (s : Signature) (hook : String) (given : Shape) : Error :=
  let p := Placement.ofSignature s
  ⟨p.text, [p.result.getD (Span.whole p.text)],
    .typeMismatch ("the " ++ Cause.quoted hook ++ " hook of " ++ Cause.quoted s.text ++
      " produced a " ++ Cause.quoted given.name) s.result given⟩

/-- A value meant to stand for something named has the wrong shape. -/
def wrongValue (name : String) (expected given : Shape) (role : String) : Error :=
  ⟨name ++ ": " ++ expected.name, [Span.place (name.utf8ByteSize + 2) expected.name],
    .typeMismatch (role ++ " for " ++ Cause.quoted name) expected given⟩

/-- An operator has no renderer for a target. -/
def missingRenderer (s : Signature) (target : String) : Error :=
  let p := Placement.ofSignature s
  ⟨p.text, [p.name], .unsupportedTarget p.text target⟩

/-- No target has the name. -/
def noTarget (name : String) (available : List String) : Error :=
  ⟨name, [Span.whole name], .unknownTarget name available⟩

/-- A literal has the wrong number of components. -/
def wrongCount (s : Shape) (given : Nat) : Error :=
  let text := s.name ++ "[" ++ toString given ++ "]"
  ⟨text, [Span.whole text], .invalidLiteral s s.size given⟩

/-- Something other than a leaf was given where a leaf is needed. -/
def notALeaf (text : String) (role : String) : Error :=
  ⟨text, [Span.whole text], .expectedLeaf role⟩

end Error

end SymbolicLinalg
