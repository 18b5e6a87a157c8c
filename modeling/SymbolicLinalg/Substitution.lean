import SymbolicLinalg.Folding
import SymbolicLinalg.Lowering

/-!
# Substitution — other nodes in the place of leaves

A binding pairs a leaf with its replacement, which has the shape of the leaf.  All bindings take
effect at once, and of two bindings of one leaf the later one counts.  Every application above a
replaced leaf is rebuilt, so that its `optimize` hook sees the new operands.
-/

namespace SymbolicLinalg

/-- A leaf and what stands in for it. -/
structure Binding (K : Type) where
  leaf : Node K
  replacement : Node K

namespace Registry

variable {K : Type} [Arithmetic K] [Numeral K]

def checkBinding (b : Binding K) : Except Error Unit :=
  match b.leaf.leafName? with
  | none => .error (.notALeaf b.leaf.text "substituted node")
  | some name =>
      if b.leaf.shape ≠ b.replacement.shape then
        .error (.wrongValue name b.leaf.shape b.replacement.shape "substitution")
      else
        .ok ()

/-- The replacements by the identities of their leaves. -/
def bindingMemo (bindings : List (Binding K)) : Memo K :=
  bindings.foldl (fun memo b => memo.insert b.leaf.id b.replacement) ∅

mutual

def substituteNode (r : Registry K) (n : Node K) : Pass K (Node K) := do
  -- the memo starts with the replacements, so leaves are looked up as well
  match ← Pass.known? n.id with
  | some known => return known
  | none =>
      match n with
      | .constant id value => return .constant id value
      | .leaf id name shape => return .leaf id name shape
      | .application id s operands =>
          let replaced ← substituteNodes r operands
          let result ←
            if Node.allSame replaced operands then
              pure (.application id s operands)
            else
              Work.within (r.rebuild s replaced)
          Pass.remember id result
          return result

def substituteNodes (r : Registry K) (nodes : List (Node K)) : Pass K (List (Node K)) :=
  match nodes with
  | [] => return []
  | n :: rest => do
      let replaced ← substituteNode r n
      let others ← substituteNodes r rest
      return replaced :: others

end

/-- Replaces leaves in an expression. -/
def substitute (r : Registry K) (n : Node K) (bindings : List (Binding K)) : Work K (Node K) := do
  Work.ofExcept (bindings.forM checkBinding)
  Work.starting (bindingMemo bindings) (r.substituteNode n)

/-- The value of an expression at a point: leaves are replaced, high-level operators lowered, and
constants folded. -/
def evaluate (r : Registry K) (n : Node K) (bindings : List (Binding K)) : Work K (Node K) := do
  let bound ← r.substitute n bindings
  let lowered ← r.lower bound
  r.fold lowered

end Registry

end SymbolicLinalg
