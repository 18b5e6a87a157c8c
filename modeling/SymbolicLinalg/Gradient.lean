import SymbolicLinalg.Build
import SymbolicLinalg.Node.PostOrder

/-!
# Gradient — reverse-mode differentiation

A gradient of the root is pushed back to the leaves it depends on.  The `gradient` hook of an
application receives the total gradient that flows into it and contributes to its operands.  What is
contributed to a leaf is summed up as the gradient of that leaf; what is contributed to an
application is summed up until its own hook fires.

Applications are visited in reverse post-order, so all users of a node have fired, or have been
passed over, before the node is visited.  Only nodes above a requested leaf take part.
-/

namespace SymbolicLinalg

/-- The gradients that have reached leaves, each with its leaf. -/
structure Gradients (K : Type) where
  reached : Std.HashMap NodeId (Node K × Node K)

namespace Gradients

variable {K : Type}

def empty : Gradients K :=
  ⟨∅⟩

def size (g : Gradients K) : Nat :=
  g.reached.size

def isEmpty (g : Gradients K) : Bool :=
  g.reached.isEmpty

/-- The gradient that has reached a leaf. -/
def get? (g : Gradients K) (leaf : Node K) : Option (Node K) :=
  g.reached[leaf.id]?.map Prod.snd

def insert (g : Gradients K) (leaf gradient : Node K) : Gradients K :=
  ⟨g.reached.insert leaf.id (leaf, gradient)⟩

/-- The names of the leaves that were reached, in increasing order. -/
def leafNames (g : Gradients K) : List String :=
  Text.sorted (g.reached.toList.filterMap fun entry => entry.2.1.leafName?)

/-- The gradient that has reached a leaf, or else a zero of its shape. -/
def getOrZero [Arithmetic K] (g : Gradients K) (leaf : Node K) : Work K (Node K) :=
  match g.get? leaf with
  | some gradient => pure gradient
  | none => Node.newConstant (.zero leaf.shape)

end Gradients

/-- What a sweep holds: the gradients of applications whose hooks have not fired, and those of
leaves. -/
structure Flow (K : Type) where
  pending : Memo K
  gradients : Gradients K

/-- A sweep over a graph from its root to its leaves. -/
abbrev Sweep (K α : Type) := StatefulWork K (Flow K) α

namespace Registry

variable {K : Type} [Arithmetic K] [Numeral K]

/-- The nodes, among nodes in post-order, from which a target can be reached. -/
def relevantNodes (targets : Std.HashSet NodeId) (order : List (Node K)) : Std.HashSet NodeId :=
  order.foldl
    (fun relevant n =>
      if targets.contains n.id || n.operands.any (relevant.contains ·.id) then
        relevant.insert n.id
      else
        relevant)
    ∅

/-- The sum of what has arrived before, if anything, and a new contribution. -/
def accumulate (r : Registry K) (total : Option (Node K)) (contribution : Node K) :
    Work K (Node K) :=
  match total with
  | some total => r.apply "+" [total, contribution]
  | none => pure contribution

/-- Routes a contribution to an operand.  Contributions to nodes above no target are dropped. -/
def contribute (r : Registry K) (relevant : Std.HashSet NodeId) (c : Contribution K) :
    Sweep K Unit := do
  if c.gradient.shape ≠ c.operand.shape then
    Work.within (Work.refuse (.wrongValue c.operand.text c.operand.shape c.gradient.shape
      "gradient contribution"))
  -- a contribution is told also where it is dropped
  Work.within (Work.record (.contributed c.operand c.gradient))
  if relevant.contains c.operand.id then
    let (_, flow) ← get
    if c.operand.isLeaf then
      let total ← Work.within (r.accumulate (flow.gradients.get? c.operand) c.gradient)
      modify fun (w, flow) => (w, { flow with gradients := flow.gradients.insert c.operand total })
    else
      let total ← Work.within (r.accumulate flow.pending[c.operand.id]? c.gradient)
      modify fun (w, flow) => (w, { flow with pending := flow.pending.insert c.operand.id total })

/-- Takes the gradient that is pending for a node. -/
def takePending? (id : NodeId) : Sweep K (Option (Node K)) :=
  modifyGet fun (w, flow) =>
    (flow.pending[id]?, (w, { flow with pending := flow.pending.erase id }))

/-- Fires the `gradient` hook of an application, if a gradient other than zero has arrived. -/
def propagate (r : Registry K) (relevant : Std.HashSet NodeId) (n : Node K) : Sweep K Unit :=
  match n with
  | .constant _ _ | .leaf _ _ _ => return
  | .application id s operands => do
      match ← takePending? id with
      | none => return
      | some incoming =>
          -- a zero contributes nothing further down
          if incoming.isZero then
            Work.within (Work.record (.skipped id s))
          else
            match (r.hooks s).gradient with
            | none => Work.within (Work.refuse (.missingHook s "gradient" "gradient"))
            | some gradient =>
                Work.within (Work.record (.propagating id s incoming))
                (gradient incoming operands).run (fun c => Work.within (r.make c))
                  (r.contribute relevant) fun e => Work.within (Work.refuse e)

/-- Gradients are taken by leaves only. -/
def checkDependency (n : Node K) : Except Error Unit :=
  if n.isLeaf then .ok () else .error (.notALeaf n.text "gradient dependency")

/-- Pushes a gradient of the root back to leaves. -/
def backpropFrom (r : Registry K) (root : Node K) (leaves : List (Node K)) (seed : Node K) :
    Work K (Gradients K) := do
  Work.ofExcept (leaves.forM checkDependency)
  let order := root.postOrder
  let relevant := relevantNodes (.ofList (leaves.map Node.id)) order
  if seed.shape ≠ root.shape then
    Work.refuse (.wrongValue "seed" root.shape seed.shape "upstream gradient")
  Work.starting ⟨∅, .empty⟩ do
    -- the seed is a contribution to the root like any other
    r.contribute relevant ⟨root, seed⟩
    order.reverse.forM (r.propagate relevant)
    let (_, flow) ← get
    return flow.gradients

/-- Pushes the identity of the shape of the root back to leaves. -/
def backprop (r : Registry K) (root : Node K) (leaves : List (Node K)) : Work K (Gradients K) := do
  let seed ← Node.newConstant (.one root.shape)
  r.backpropFrom root leaves seed

end Registry

end SymbolicLinalg
