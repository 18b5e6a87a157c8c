/-!
# Shortest — the shortest decimal that reads back

A finite double is a mantissa times a power of two.  The reals nearer to it than to any other double
form an interval around it, whose ends belong to it exactly if the mantissa is even.  Its shortest
decimal is the point of that interval with the fewest digits, the nearest one if two points have as
many, and the larger of two that are equally near.

Everything is decided in exact natural arithmetic.  The grid of decimals with `n` digits is tried
for `n = 1, 2, …`; on each grid only the two neighbours of the value can be the nearest points, so
only those are tested.
-/

namespace SymbolicLinalg

namespace Decimal

/-- A positive number `mantissa * 2 ^ exponent`. -/
structure Binary where
  mantissa : Nat
  exponent : Int
  deriving DecidableEq, Repr

/-- A number `coefficient * 10 ^ exponent`. -/
structure Scientific where
  coefficient : Nat
  exponent : Int
  deriving DecidableEq, Repr

/-- Compares `a * 10 ^ e` with `b * 2 ^ q`. -/
def comparison (a : Nat) (e : Int) (b : Nat) (q : Int) : Ordering :=
  compare (a * Nat.pow 10 e.toNat * Nat.pow 2 (-q).toNat)
    (b * Nat.pow 2 q.toNat * Nat.pow 10 (-e).toNat)

namespace Binary

/-- The largest multiple of `10 ^ e` that is not above the number, as a count of that step. -/
def floorOn (b : Binary) (e : Int) : Nat :=
  (b.mantissa * Nat.pow 2 b.exponent.toNat * Nat.pow 10 (-e).toNat) /
    (Nat.pow 10 e.toNat * Nat.pow 2 (-b.exponent).toNat)

/-- The exponent of the leading decimal digit. -/
def leading (b : Binary) : Int :=
  let bits : Int := b.exponent + b.mantissa.log2
  -- 1262611 / 2 ^ 22 is the decimal logarithm of two, near enough for the estimate to be right or
  -- too small by one
  let estimate := Int.fdiv (bits * 1262611) 4194304
  if comparison 1 (estimate + 1) b.mantissa b.exponent = .gt then estimate else estimate + 1

/-- The lower end of the interval that reads back, in quarters of the last place.  Below the least
mantissa of an exponent the neighbours lie twice as close. -/
def lowerEnd (b : Binary) : Nat :=
  4 * b.mantissa - (if b.mantissa = Nat.pow 2 52 then 1 else 2)

def upperEnd (b : Binary) : Nat :=
  4 * b.mantissa + 2

/-- Whether `d * 10 ^ e` reads back as the number. -/
def readsBack (b : Binary) (d : Nat) (e : Int) : Bool :=
  -- the ends are counted in quarters, hence the exponent is less by two
  let low := comparison d e b.lowerEnd (b.exponent - 2)
  let high := comparison d e b.upperEnd (b.exponent - 2)
  if b.mantissa % 2 = 0 then low != .lt && high != .gt else low == .gt && high == .lt

/-- The point of the grid of step `10 ^ e` that reads back, the nearer one if both neighbours do. -/
def gridPoint? (b : Binary) (e : Int) : Option Scientific :=
  let below := b.floorOn e
  match b.readsBack below e, b.readsBack (below + 1) e with
  | true, true =>
      -- the middle of the two points against the number
      if comparison (2 * below + 1) e (2 * b.mantissa) b.exponent = .gt then
        some ⟨below, e⟩
      else
        some ⟨below + 1, e⟩
  | true, false => some ⟨below, e⟩
  | false, true => some ⟨below + 1, e⟩
  | false, false => none

end Binary

/-- Moves the zeros at the end of a coefficient into the exponent. -/
def Scientific.normalize (s : Scientific) : Scientific :=
  if h : 0 < s.coefficient ∧ s.coefficient % 10 = 0 then
    Scientific.normalize ⟨s.coefficient / 10, s.exponent + 1⟩
  else
    s
termination_by s.coefficient
decreasing_by exact Nat.div_lt_self h.1 (by decide)

/-- Seventeen digits always suffice, so a grid with a hit is among the first seventeen. -/
def shortest (b : Binary) : Scientific :=
  let top := b.leading
  -- the grid with one digit has the coarsest step
  let found := (List.range 17).findSome? fun k : Nat => b.gridPoint? (top - (k : Int))
  (found.getD ⟨b.floorOn (top - 16), top - 16⟩).normalize

end Decimal

end SymbolicLinalg
