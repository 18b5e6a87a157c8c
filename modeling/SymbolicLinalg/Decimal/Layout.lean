import SymbolicLinalg.Decimal.Shortest

/-!
# Layout — how a double is written

Two layouts of the shortest digits are in use.  The *plain* one is always positional and writes
whole numbers without a point.  The *compact* one keeps a fractional part on whole numbers and goes
over to an exponent where the leading digit stands below the fourth decimal place or above the
sixteenth digit.
-/

namespace SymbolicLinalg

namespace Decimal

/-! ## Taking a double apart -/

/-- What the bits of a double stand for. -/
inductive Reading where
  | notANumber
  | infinite (negative : Bool)
  | zero (negative : Bool)
  | finite (negative : Bool) (magnitude : Binary)
  deriving DecidableEq, Repr

def read (x : Float) : Reading :=
  let bits := x.toBits.toNat
  let negative := bits / Nat.pow 2 63 == 1
  let exponent : Nat := bits / Nat.pow 2 52 % Nat.pow 2 11
  let fraction : Nat := bits % Nat.pow 2 52
  if exponent = 2047 then
    if fraction = 0 then .infinite negative else .notANumber
  else if exponent = 0 then
    -- no hidden bit, and the step of the least normal numbers
    if fraction = 0 then .zero negative else .finite negative ⟨fraction, -1074⟩
  else
    .finite negative ⟨fraction + Nat.pow 2 52, (exponent : Int) - 1075⟩

/-! ## Digits and their point -/

/-- Which leading exponents are written positionally, and what follows a whole number. -/
structure Style where
  positional : Int → Bool
  wholeEnd : String

/-- Never an exponent, never a point on a whole number. -/
def plainStyle : Style :=
  ⟨fun _ => true, ""⟩

/-- Positional from the fourth decimal place to the sixteenth digit, always with a point there. -/
def compactStyle : Style :=
  ⟨fun leading => decide (-5 < leading ∧ leading < 16), ".0"⟩

def zeros (n : Nat) : String :=
  String.ofList (List.replicate n '0')

namespace Scientific

def digits (s : Scientific) : List Char :=
  Nat.toDigits 10 s.coefficient

/-- The exponent of the first digit. -/
def leading (s : Scientific) : Int :=
  s.exponent + s.digits.length - 1

def positional (s : Scientific) (wholeEnd : String) : String :=
  let ds := s.digits
  let places := (-s.exponent).toNat
  if 0 ≤ s.exponent then
    String.ofList ds ++ zeros s.exponent.toNat ++ wholeEnd
  else if places < ds.length then
    -- the point falls between two digits
    String.ofList (ds.take (ds.length - places)) ++ "." ++
      String.ofList (ds.drop (ds.length - places))
  else
    "0." ++ zeros (places - ds.length) ++ String.ofList ds

/-- One digit, the others behind a point, and the exponent without sign or padding. -/
def exponential (s : Scientific) : String :=
  let fraction := s.digits.drop 1
  String.ofList (s.digits.take 1) ++
    (if fraction.isEmpty then "" else "." ++ String.ofList fraction) ++
    "e" ++ toString s.leading

def layout (style : Style) (s : Scientific) : String :=
  if style.positional s.leading then s.positional style.wholeEnd else s.exponential

end Scientific

/-! ## The text of a double -/

def signed (negative : Bool) (text : String) : String :=
  if negative then "-" ++ text else text

def Style.text (style : Style) (x : Float) : String :=
  match read x with
  | .notANumber => "NaN"
  | .infinite negative => signed negative "inf"
  | .zero negative => signed negative ("0" ++ style.wholeEnd)
  | .finite negative magnitude => signed negative ((shortest magnitude).layout style)

/-- Whether the sign bit is set on something other than a NaN. -/
def isSigned (x : Float) : Bool :=
  match read x with
  | .notANumber => false
  | .infinite negative | .zero negative | .finite negative _ => negative

end Decimal

end SymbolicLinalg
