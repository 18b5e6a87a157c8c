import SymbolicLinalg.Shape

/-!
# Signature — the key of an operator, and where its parts stand in its text

An operator is known by the shape of its result, its name and the shapes of its operands, written
`Vec4 *(Mat44, Vec4)`.  Errors point into such a text by byte offsets, so this file also places
every part of it:

* `Signature.text` writes a signature;
* `Placement.of` lays out the same text, with or without the result, and records the span of the
  result, of the name, of the whole operand list and of each operand;
* `Placement.text_ofSignature` says that the two texts agree.
-/

namespace SymbolicLinalg

structure Signature where
  result : Shape
  name : String
  operands : List Shape
  deriving DecidableEq, Repr

/-- The same name and operands, whatever the result. -/
def Signature.answersTo (s : Signature) (name : String) (operands : List Shape) : Bool :=
  s.name == name && s.operands == operands

def Signature.text (s : Signature) : String :=
  s.result.name ++ " " ++ s.name ++ Shape.tuple s.operands

/-! ## Spans -/

/-- A range of byte offsets into a text. -/
structure Span where
  start : Nat
  stop : Nat
  deriving DecidableEq, Repr

namespace Span

/-- The span of a piece of text that begins at an offset. -/
def place (start : Nat) (piece : String) : Span :=
  ⟨start, start + piece.utf8ByteSize⟩

/-- The span of a whole text. -/
def whole (text : String) : Span :=
  place 0 text

end Span

/-! ## Placement -/

structure Placement where
  text : String
  result : Option Span
  name : Span
  /-- The operand list with its parentheses. -/
  operandList : Span
  operands : List Span
  deriving DecidableEq, Repr

namespace Placement

/-- The spans of shape names that are separated by a comma and a blank. -/
def operandSpans (start : Nat) : List Shape → List Span
  | [] => []
  | s :: rest =>
      let span := Span.place start s.name
      span :: operandSpans (span.stop + 2) rest

/-- Lays out a signature whose result may be left unsaid. -/
def of (result : Option Shape) (name : String) (operands : List Shape) : Placement :=
  let head := (result.map fun r => r.name ++ " ").getD ""
  let list := Shape.tuple operands
  let nameSpan := Span.place head.utf8ByteSize name
  { text := head ++ name ++ list
    result := result.map fun r => Span.whole r.name
    name := nameSpan
    operandList := Span.place nameSpan.stop list
    operands := operandSpans (nameSpan.stop + 1) operands }

def ofSignature (s : Signature) : Placement :=
  of (some s.result) s.name s.operands

theorem text_ofSignature (s : Signature) : (ofSignature s).text = s.text := rfl

end Placement

end SymbolicLinalg
