import SymbolicLinalg.Build

/-!
# Folding — computing applications of constants

An application whose operands are constants becomes a constant, if its operator can be folded.  Any
other application is rebuilt over its folded operands, where its `optimize` hook is asked again, and
is the same node if its operands are.
-/

namespace SymbolicLinalg

namespace Registry

variable {K : Type}

/-- An application over folded operands, where `kept` is the application as it was. -/
def foldApplication (r : Registry K) (s : Signature) (operands folded : List (Node K))
    (kept : Node K) : Work K (Node K) :=
  match (r.hooks s).fold, Node.literals? folded with
  | some fold, some values => do
      let value := fold values
      if value.shape ≠ s.result then
        Work.refuse (.wrongResult s "fold" value.shape)
      else
        Work.record (.folded s)
        Node.newConstant value
  -- not foldable, or not over constants only
  | _, _ => if Node.allSame folded operands then pure kept else r.rebuild s folded

mutual

def foldNode (r : Registry K) (n : Node K) : Pass K (Node K) :=
  match n with
  | .constant id value => return .constant id value
  | .leaf id name shape => return .leaf id name shape
  | .application id s operands => do
      match ← Pass.known? id with
      | some known => return known
      | none =>
          let folded ← foldNodes r operands
          let result ← Work.within
            (r.foldApplication s operands folded (.application id s operands))
          Pass.remember id result
          return result

def foldNodes (r : Registry K) (nodes : List (Node K)) : Pass K (List (Node K)) :=
  match nodes with
  | [] => return []
  | n :: rest => do
      let folded ← foldNode r n
      let others ← foldNodes r rest
      return folded :: others

end

/-- Computes whatever is constant in an expression. -/
def fold (r : Registry K) (n : Node K) : Work K (Node K) :=
  Work.starting ∅ (r.foldNode n)

end Registry

end SymbolicLinalg
