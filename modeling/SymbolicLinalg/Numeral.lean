import SymbolicLinalg.Decimal.Layout
import SymbolicLinalg.Target

/-!
# Numeral — the texts of a component

A component is written in three ways: plainly in the text of an expression, compactly where the
value is to be read back, and as a literal of a target language.
-/

namespace SymbolicLinalg

class Numeral (K : Type) where
  plain : K → String
  compact : K → String
  /-- Whether the component is less than zero, and so written in parentheses in expressions. -/
  isNegative : K → Bool
  code : Target → K → String

namespace Numeral

/-- The text of a component inside an expression. -/
def text {K : Type} [Numeral K] (x : K) : String :=
  if isNegative x then "(" ++ plain x ++ ")" else plain x

/-! ## Doubles -/

def notANumberName : Target → String
  | .c => "NAN"
  | .js => "NaN"

def infinityName : Target → String
  | .c => "INFINITY"
  | .js => "Infinity"

/-- A double as a literal of a target.  Whatever carries a minus sign is parenthesised. -/
def floatCode (target : Target) (x : Float) : String :=
  let body :=
    match Decimal.read x with
    | .notANumber => notANumberName target
    | .infinite negative => Decimal.signed negative (infinityName target)
    | .zero _ | .finite _ _ => Decimal.compactStyle.text x
  if Decimal.isSigned x then "(" ++ body ++ ")" else body

end Numeral

instance : Numeral Float where
  plain := Decimal.plainStyle.text
  compact := Decimal.compactStyle.text
  isNegative x := decide (x < 0.0)
  code := Numeral.floatCode

end SymbolicLinalg
