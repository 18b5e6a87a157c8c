import SymbolicLinalg.Error

/-!
# Target — the source languages that expressions are rendered to

* `c`: C++ with fixed-size matrix types, constructors such as `Mat44 { … }` and element access by
  row and column;
* `js`: JavaScript with flat typed arrays and a runtime of helper functions.
-/

namespace SymbolicLinalg

inductive Target where
  | c
  | js
  deriving DecidableEq, Repr, Inhabited

namespace Target

def all : List Target :=
  [.c, .js]

def name : Target → String
  | .c => "c"
  | .js => "js"

def ofName (text : String) : Except Error Target :=
  match all.find? (·.name == text) with
  | some target => .ok target
  | none => .error (.noTarget text (all.map name))

end Target

end SymbolicLinalg
