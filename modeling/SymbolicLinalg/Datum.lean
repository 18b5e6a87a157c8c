import SymbolicLinalg.Literal
import SymbolicLinalg.Target

/-!
# Datum — shapes, targets and literals as plain data

Shapes and targets are written as the names of their alternatives, literals as records of their
shape and their components.  Reading is more liberal than writing: an alternative may also stand as
the key of a record whose only value is null, and a literal may be a list of its two fields or a
record with fields of other names besides.  The number of components of a literal is not checked.
-/

namespace SymbolicLinalg

inductive Datum where
  | null
  | bool (value : Bool)
  | number (value : Float)
  | text (value : String)
  | list (items : List Datum)
  | record (fields : List (String × Datum))
  deriving Inhabited

namespace Datum

/-- The name of an alternative that carries no data. -/
def alternative? : Datum → Option String
  | .text name => some name
  | .record [(name, .null)] => some name
  | _ => none

def number? : Datum → Option Float
  | .number value => some value
  | _ => none

def items? : Datum → Option (List Datum)
  | .list items => some items
  | _ => none

def toShape? (d : Datum) : Option Shape :=
  d.alternative?.bind Shape.ofName?

def ofShape (s : Shape) : Datum :=
  .text s.name

def targetName : Target → String
  | .c => "C"
  | .js => "Js"

def toTarget? (d : Datum) : Option Target := do
  let name ← d.alternative?
  Target.all.find? (targetName · == name)

def ofTarget (t : Target) : Datum :=
  .text (targetName t)

/-- The two fields of a literal. -/
def literalFields? : Datum → Option (Datum × Datum)
  | .list [shape, components] => some (shape, components)
  | .record fields => do
      let shape ← fields.lookup "ty"
      let components ← fields.lookup "data"
      return (shape, components)
  | _ => none

def toLiteral? (d : Datum) : Option (Literal Float) := do
  let (shape, components) ← d.literalFields?
  let s ← shape.toShape?
  let items ← components.items?
  let numbers ← items.mapM number?
  return ⟨s, numbers⟩

def ofLiteral (value : Literal Float) : Datum :=
  .record [("ty", ofShape value.shape), ("data", .list (value.components.map .number))]

end Datum

end SymbolicLinalg
