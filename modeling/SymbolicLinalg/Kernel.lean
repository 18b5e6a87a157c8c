import SymbolicLinalg.Code

/-!
# Kernel — several named expressions emitted together

A kernel declares its outputs in order.  An application that is used more than once, by other
applications or as an output, is computed once, into a temporary that is declared before its first
use.

The emission follows a plan: for every output the nodes of its graph in post-order, less those that
an earlier output has rendered.  Each node of the plan is rendered once.
-/

namespace SymbolicLinalg

/-- Named expressions, in the order of their emission. -/
structure Kernel (K : Type) where
  outputs : List (String × Node K)

namespace Kernel

variable {K : Type}

/-! ## Plan -/

/-- The nodes to render for one output, operands first. -/
structure Block (K : Type) where
  name : String
  root : Node K
  nodes : List (Node K)

/-- The blocks of outputs, where some nodes have been rendered already. -/
def blocksFrom (seen : Std.HashSet NodeId) : List (String × Node K) → List (Block K)
  | [] => []
  | (name, root) :: rest =>
      let nodes := root.postOrder.filter fun n => !seen.contains n.id
      ⟨name, root, nodes⟩ :: blocksFrom (seen.insertMany (nodes.map Node.id)) rest

def blocks (k : Kernel K) : List (Block K) :=
  blocksFrom ∅ k.outputs

/-- The uses of nodes: by each output of its root, and by each application of its operands. -/
def occurrences (k : Kernel K) : List NodeId :=
  k.outputs.map (·.2.id) ++
    (k.blocks.flatMap Block.nodes).flatMap fun n => n.operands.map Node.id

/-- How often each node is used. -/
def useCounts (k : Kernel K) : Std.HashMap NodeId Nat :=
  k.occurrences.foldl (fun counts id => counts.insert id (counts.getD id 0 + 1)) ∅

/-! ## Emission -/

/-- What has been emitted. -/
structure Emission where
  lines : Array String
  texts : Texts
  temporaries : Nat
  /-- The applications whose renderers have been called, in order. -/
  rendered : Array NodeId

abbrev Emitting (α : Type) := ExceptT Fault (StateM Emission) α

/-- Temporaries are numbered in the order of their declarations. -/
def temporaryName (index : Nat) : String :=
  "_t" ++ toString index

namespace Emitting

def writeLine (line : String) : Emitting Unit :=
  modify fun e => { e with lines := e.lines.push line }

def setText (id : NodeId) (text : String) : Emitting Unit :=
  modify fun e => { e with texts := e.texts.insert id text }

/-- The name of a temporary that has not been used. -/
def newTemporary : Emitting String :=
  modifyGet fun e => (temporaryName e.temporaries, { e with temporaries := e.temporaries + 1 })

def recordRendering (id : NodeId) : Emitting Unit :=
  modify fun e => { e with rendered := e.rendered.push id }

end Emitting

variable [Arithmetic K] [Numeral K]

/-- The text of a node over the texts of its operands. -/
def renderNode (r : Registry K) (target : Target) (n : Node K) : Emitting String := do
  let emission ← get
  let text ← liftM (r.nodeText target emission.texts n)
  if n.isApplication then Emitting.recordRendering n.id
  return text

/-- Renders a node, into a temporary if it is an application that is used more than once. -/
def emitNode (r : Registry K) (target : Target) (uses : Std.HashMap NodeId Nat) (n : Node K) :
    Emitting Unit := do
  let text ← renderNode r target n
  -- constants and leaves are repeated, however often they are used
  if n.isApplication && decide (1 < uses.getD n.id 0) then
    let name ← Emitting.newTemporary
    Emitting.writeLine (target.declaration n.shape name text)
    Emitting.setText n.id name
  else
    Emitting.setText n.id text

def emitBlock (r : Registry K) (target : Target) (uses : Std.HashMap NodeId Nat) (b : Block K) :
    Emitting Unit := do
  b.nodes.forM (emitNode r target uses)
  -- the root is the last node of its graph, and may be a temporary by now
  let emission ← get
  let text ← liftM (Registry.operandText emission.texts b.root)
  Emitting.writeLine (target.declaration b.root.shape b.name text)

/-- Emits a kernel.  The lines are kept also if the emission is given up. -/
def emit (k : Kernel K) (r : Registry K) (target : Target) : Except Fault Unit × Emission :=
  (k.blocks.forM (emitBlock r target k.useCounts)).run.run ⟨#[], ∅, 0, #[]⟩

/-- Emits a kernel and records it. -/
def emitRecorded (k : Kernel K) (r : Registry K) (target : Target) :
    Work K (Except Fault Unit × List String) := do
  let (outcome, emission) := k.emit r target
  if outcome matches .ok () then
    Work.record (.emitted k.outputs.length emission.temporaries target)
  return (outcome, emission.lines.toList)

/-- The lines of a kernel as one text, each ended by a line feed. -/
def source (k : Kernel K) (r : Registry K) (target : Target) : Work K String := do
  match ← k.emitRecorded r target with
  | (.ok (), lines) => return String.join (lines.map (· ++ "\n"))
  | (.error fault, _) => throw fault

end Kernel

end SymbolicLinalg
