import SymbolicLinalg.Build

/-!
# Lowering — from high-level operators to simpler ones

The operands of an application are lowered first.  Then a `replace` hook always expands it, or else
an `expand` hook may, and the expansion is lowered in its turn.  An application that is not expanded
stays, as the same node if its operands are the same nodes.  The `optimize` hooks are not asked again
about applications that stay.

Lowering is structural in the operands.  Only the lowering of expansions is not, so `lowerWith`
leaves it to `again`, and `lowerWithin` bounds how deeply expansions may be nested.
-/

namespace SymbolicLinalg

namespace Registry

variable {K : Type}

/-- What the hooks of an operator make of it, over lowered operands, and which hook it was. -/
def expansion? (r : Registry K) (s : Signature) (operands : List (Node K)) :
    Work K (Option (String × Node K)) :=
  match (r.hooks s).replace, (r.hooks s).expand with
  | some replace, _ => do
      let n ← follow r.make (replace operands)
      return some ("replace", n)
  | none, some expand => do
      let n? ← follow r.make (expand operands)
      return n?.map fun n => ("expand", n)
  | none, none => return none

/-- An expansion has the shape of the application it stands for. -/
def checkedExpansion? (r : Registry K) (s : Signature) (operands : List (Node K)) :
    Work K (Option (Node K)) := do
  match ← r.expansion? s operands with
  | none => return none
  | some (hook, n) =>
      if n.shape ≠ s.result then
        Work.refuse (.wrongResult s hook n.shape)
      else
        Work.record (.expanded hook s n)
        return some n

mutual

def lowerWith (r : Registry K) (again : Node K → Pass K (Node K)) (n : Node K) :
    Pass K (Node K) :=
  match n with
  | .constant id value => return .constant id value
  | .leaf id name shape => return .leaf id name shape
  | .application id s operands => do
      match ← Pass.known? id with
      | some known => return known
      | none =>
          Work.within (Work.record (.lowering id s))
          let lowered ← lowerAllWith r again operands
          let result ← match ← Work.within (r.checkedExpansion? s lowered) with
            -- an expansion may use high-level operators itself
            | some expanded => again expanded
            | none =>
                if Node.allSame lowered operands then
                  pure (.application id s operands)
                else
                  Work.within (Node.newApplication s lowered)
          -- what has been lowered is its own lowered form
          Pass.remember id result
          Pass.remember result.id result
          return result

def lowerAllWith (r : Registry K) (again : Node K → Pass K (Node K)) (nodes : List (Node K)) :
    Pass K (List (Node K)) :=
  match nodes with
  | [] => return []
  | n :: rest => do
      let lowered ← lowerWith r again n
      let others ← lowerAllWith r again rest
      return lowered :: others

end

/-- Lowering in which expansions are nested fewer than `depth` times. -/
def lowerWithin (r : Registry K) : Nat → Node K → Pass K (Node K)
  | 0, _ => throw .nesting
  | depth + 1, n => r.lowerWith (r.lowerWithin depth) n

/-- Lowers a node, within a pass that may have lowered others. -/
def lowerNext (r : Registry K) (n : Node K) : Pass K (Node K) :=
  r.lowerWithin nestingLimit n

theorem lowerNext_eq (r : Registry K) (n : Node K) :
    r.lowerNext n = r.lowerWith (r.lowerWithin (nestingLimit - 1)) n := rfl

/-- Lowers a single expression. -/
def lower (r : Registry K) (n : Node K) : Work K (Node K) :=
  Work.starting ∅ (r.lowerNext n)

/-- Lowers expressions one after the other in a single pass, so that shared nodes stay shared. -/
def lowerAll (r : Registry K) (nodes : List (Node K)) : Work K (List (Node K)) :=
  Work.starting ∅ (nodes.mapM r.lowerNext)

end Registry

end SymbolicLinalg
