import Std.Data.HashMap
import SymbolicLinalg.Node.Text
import SymbolicLinalg.Target

/-!
# Workspace — identities, events and faults

Work on expressions needs a supply of fresh identities and leaves a trail of events.  Both are kept
in a `Workspace`, also when the work is given up: identities are never handed out twice, and the
trail says what was done before a fault.

Events carry nodes; they become text only when somebody asks for the trail.
-/

namespace SymbolicLinalg

variable {K : Type}

/-! ## Faults -/

/-- Why work was given up. -/
inductive Fault where
  | error (e : Error)
  /-- Hooks called one another, one inside the other, more often than is allowed. -/
  | nesting
  /-- The text of an operand was needed before it was rendered. -/
  | unrendered (id : NodeId)
  deriving DecidableEq, Repr

/-- How deeply the work of hooks may be nested. -/
def nestingLimit : Nat :=
  1000000

/-! ## Events -/

inductive Level where
  | debug
  | trace
  deriving DecidableEq, Repr

/-- One thing that was done. -/
inductive Event (K : Type) where
  | registered (operator : Signature) (hooks : List String)
  | simplified (operator : Signature) (result : Node K)
  | lowering (id : NodeId) (operator : Signature)
  | expanded (hook : String) (operator : Signature) (result : Node K)
  | folded (operator : Signature)
  | differentiating (id : NodeId) (operator : Signature)
  | skipped (id : NodeId) (operator : Signature)
  | propagating (id : NodeId) (operator : Signature) (incoming : Node K)
  | contributed (operand contribution : Node K)
  | rendered (bytes : Nat) (target : Target) (shape : Shape)
  | emitted (outputs temporaries : Nat) (target : Target)

namespace Event

/-- The least detailed level at which an event is told; contributions are never told. -/
def level? : Event K → Option Level
  | .registered _ _ | .lowering _ _ | .folded _ | .differentiating _ _ | .skipped _ _ => some .trace
  | .simplified _ _ | .expanded _ _ _ | .propagating _ _ _ | .rendered _ _ _ | .emitted _ _ _ =>
      some .debug
  | .contributed _ _ => none

variable [Arithmetic K] [Numeral K]

def message : Event K → String
  | .registered operator hooks =>
      "registering " ++ Cause.quoted operator.text ++ " with hooks [" ++
        ", ".intercalate (hooks.map fun h => "\"" ++ h ++ "\"") ++ "]"
  | .simplified operator result =>
      "simplified " ++ Cause.quoted operator.text ++ " to " ++ Cause.quoted result.text
  | .lowering _ operator => "lowering " ++ Cause.quoted operator.text
  | .expanded hook operator result =>
      hook ++ " rewrote " ++ Cause.quoted operator.text ++ " to " ++ Cause.quoted result.text
  | .folded operator => "folded " ++ Cause.quoted operator.text
  | .differentiating _ operator => "differentiating " ++ Cause.quoted operator.text
  | .skipped _ operator =>
      "skipping " ++ Cause.quoted operator.text ++ ": zero upstream gradient"
  | .propagating _ operator _ => "propagating through " ++ Cause.quoted operator.text
  | .contributed operand contribution =>
      "contributed " ++ Cause.quoted contribution.text ++ " to " ++ Cause.quoted operand.text
  | .rendered bytes target shape =>
      "rendered " ++ toString bytes ++ " bytes of " ++ target.name ++ " for a " ++
        Cause.quoted shape.name
  | .emitted outputs temporaries target =>
      "emitted " ++ toString outputs ++ " outputs with " ++ toString temporaries ++
        " temporaries to " ++ target.name

/-- The line that tells the event at a level of detail, if it is told there. -/
def line? (detail : Level) (e : Event K) : Option String :=
  match e.level?, detail with
  | some .debug, _ => some ("DEBUG " ++ e.message)
  | some .trace, .trace => some ("TRACE " ++ e.message)
  | _, _ => none

end Event

/-! ## Workspaces -/

structure Workspace (K : Type) where
  nextId : NodeId
  /-- What was done, in order. -/
  events : Array (Event K)

/-- Work that uses a workspace and may be given up. -/
abbrev Work (K α : Type) := ExceptT Fault (StateM (Workspace K)) α

/-- Work that also keeps a state `S` of its own. -/
abbrev StatefulWork (K S α : Type) := ExceptT Fault (StateM (Workspace K × S)) α

namespace Work

/-- What work comes to in a workspace, and the workspace it leaves. -/
def runIn {α : Type} (work : Work K α) (w : Workspace K) : Except Fault α × Workspace K :=
  work.run.run w

def refuse {α : Type} (e : Error) : Work K α :=
  throw (.error e)

def ofExcept {α : Type} : Except Error α → Work K α
  | .ok a => pure a
  | .error e => refuse e

def record (e : Event K) : Work K Unit :=
  modify fun w => { w with events := w.events.push e }

def fresh : Work K NodeId :=
  modifyGet fun w => (w.nextId, { w with nextId := w.nextId + 1 })

/-- Work inside a larger state, of which it uses the workspace. -/
def within {S α : Type} (work : Work K α) : StatefulWork K S α :=
  fun (w, s) =>
    let (outcome, w') := runIn work w
    (outcome, (w', s))

/-- Runs work with a state of its own, and gives the last state up. -/
def starting {S α : Type} (s : S) (work : StatefulWork K S α) : Work K α :=
  fun w =>
    let (outcome, (w', _)) := work.run.run (w, s)
    (outcome, w')

/-! ### What work comes to -/

section

variable {S α β : Type} (w : Workspace K) (s : S)

@[simp] theorem runIn_pure (a : α) : runIn (pure a) w = (.ok a, w) := rfl

@[simp] theorem runIn_refuse (e : Error) :
    runIn (refuse e : Work K α) w = (.error (.error e), w) := rfl

@[simp] theorem runIn_ofExcept_ok (a : α) : runIn (ofExcept (.ok a)) w = (.ok a, w) := rfl

@[simp] theorem runIn_ofExcept_error (e : Error) :
    runIn (ofExcept (.error e) : Work K α) w = (.error (.error e), w) := rfl

@[simp] theorem runIn_record (e : Event K) :
    runIn (record e) w = (.ok (), { w with events := w.events.push e }) := rfl

@[simp] theorem runIn_fresh :
    runIn (fresh : Work K NodeId) w = (.ok w.nextId, { w with nextId := w.nextId + 1 }) := rfl

/-- The second part of some work starts in the workspace that the first part leaves, unless the
first part was given up. -/
theorem runIn_bind (first : Work K α) (second : α → Work K β) :
    runIn (first >>= second) w =
      match runIn first w with
      | (.ok a, w') => runIn (second a) w'
      | (.error f, w') => (.error f, w') := by
  simp only [runIn, ExceptT.run_bind, StateT.run_bind]
  rcases StateT.run (ExceptT.run first) w with ⟨outcome, w'⟩
  cases outcome <;> rfl

theorem within_apply (work : Work K α) :
    (within work : StatefulWork K S α) (w, s) = ((runIn work w).1, ((runIn work w).2, s)) := rfl

theorem runIn_of_within {work : Work K α} {s s' : Workspace K × S} {a : α}
    (run : (within work : StatefulWork K S α).run.run s = (.ok a, s')) :
    runIn work s.1 = (.ok a, s'.1) := by
  change (within work : StatefulWork K S α) (s.1, s.2) = (.ok a, s') at run
  rw [within_apply] at run
  cases outcome : runIn work s.1
  rw [outcome] at run
  cases run
  rfl

theorem runIn_starting (work : StatefulWork K S α) :
    (runIn (starting s work) w).1 = (work.run.run (w, s)).1 := rfl

end

end Work

/-! ## Memos -/

/-- What a pass has found out about nodes, by their identities. -/
abbrev Memo (K : Type) := Std.HashMap NodeId (Node K)

/-- A pass over a graph that remembers its results. -/
abbrev Pass (K α : Type) := StatefulWork K (Memo K) α

namespace Pass

def known? (id : NodeId) : Pass K (Option (Node K)) := do
  let (_, memo) ← get
  return memo[id]?

def remember (id : NodeId) (result : Node K) : Pass K Unit :=
  modify fun (w, memo) => (w, memo.insert id result)

end Pass

end SymbolicLinalg
