import SymbolicLinalg.Recipe
import SymbolicLinalg.Target
import SymbolicLinalg.Text.EditDistance
import SymbolicLinalg.Text.Sorted

/-!
# Registry — the operators that expressions are built from

An operator is registered once under its signature, together with the hooks that the passes need.
One name may be registered any number of times, with different operands or different results.

Operators are found by exact match: `Registry.resolve` goes by the name and the shapes of the
operands and wants a single answer, `Registry.resolveAs` by the result as well.  There is
no conversion between shapes.
-/

namespace SymbolicLinalg

variable {K : Type}

/-! ## Hooks -/

/-- A recipe that only builds. -/
abbrev Rule (K α : Type) := Recipe K Empty Empty α

/-- A gradient on its way to an operand. -/
structure Contribution (K : Type) where
  operand : Node K
  gradient : Node K

/-- What an operator can do beyond being applied.  Every hook is given the operands. -/
structure Hooks (K : Type) where
  /-- A simpler node in place of a new application. -/
  optimize : Option (List (Node K) → Rule K (Option (Node K))) := none
  /-- Lowering into simpler operators, where the operands allow it. -/
  expand : Option (List (Node K) → Rule K (Option (Node K))) := none
  /-- Lowering into simpler operators, in every case. -/
  replace : Option (List (Node K) → Rule K (Node K)) := none
  /-- The derivative by a variable; requests are answered with derivatives of nodes. -/
  deriv : Option (Node K → List (Node K) → Recipe K (Node K) (Node K) (Node K)) := none
  /-- The gradients of the operands, given the gradient of the application. -/
  gradient : Option (Node K → List (Node K) → Recipe K (Contribution K) Unit Unit) := none
  /-- The value over constant operands. -/
  fold : Option (List (Literal K) → Literal K) := none
  /-- The source text in a target, given the texts of the operands. -/
  render : Target → Option (List String → String) := fun _ => none

namespace Hooks

/-- The names of the hooks that are there. -/
def present (h : Hooks K) : List String :=
  let flags := [("optimize", h.optimize.isSome), ("expand", h.expand.isSome),
    ("replace", h.replace.isSome), ("deriv", h.deriv.isSome), ("gradient", h.gradient.isSome),
    ("fold", h.fold.isSome)]
  let targets := Target.all.map fun t => (t.name, (h.render t).isSome)
  ((flags ++ targets).filter Prod.snd).map Prod.fst

end Hooks

structure Definition (K : Type) where
  signature : Signature
  hooks : Hooks K := {}

/-- The definition as one line of text. -/
def Definition.describe (d : Definition K) : String :=
  let quote (s : String) := "\"" ++ s ++ "\""
  "Definition \x7b signature: " ++ quote d.signature.text ++ ", hooks: [" ++
    ", ".intercalate (d.hooks.present.map quote) ++ "] \x7d"

/-! ## The registry -/

/-- Definitions in the order of their registration. -/
structure Registry (K : Type) where
  definitions : List (Definition K)

namespace Registry

def empty : Registry K :=
  ⟨[]⟩

def size (r : Registry K) : Nat :=
  r.definitions.length

def isEmpty (r : Registry K) : Bool :=
  r.definitions.isEmpty

/-- The definition of a signature. -/
def find? (r : Registry K) (s : Signature) : Option (Definition K) :=
  r.definitions.find? fun d => decide (d.signature = s)

/-- The hooks of a signature; an operator that is not registered has none. -/
def hooks (r : Registry K) (s : Signature) : Hooks K :=
  match r.find? s with
  | some d => d.hooks
  | none => {}

/-- Adds an operator, unless its signature is taken. -/
def register (r : Registry K) (d : Definition K) : Except Error (Registry K) :=
  if (r.find? d.signature).isSome then
    .error (.alreadyRegistered d.signature)
  else
    .ok ⟨r.definitions ++ [d]⟩

@[simp] theorem find?_empty (s : Signature) : (empty : Registry K).find? s = none := rfl

theorem signature_of_find? {r : Registry K} {s : Signature} {d : Definition K}
    (h : r.find? s = some d) : d.signature = s := by
  simpa using List.find?_some h

/-- Operators are added at the end. -/
theorem definitions_of_register {r extended : Registry K} {d : Definition K}
    (h : r.register d = .ok extended) : extended.definitions = r.definitions ++ [d] := by
  rw [register] at h
  split at h
  · exact absurd h nofun
  · rw [← Except.ok.inj h]

/-! ## Resolution -/

def named (r : Registry K) (name : String) : List (Definition K) :=
  r.definitions.filter (·.signature.name == name)

/-- What the caller may have meant: the operators of the name with as many operands, or, if the name
is unknown, the names that differ from it by at most one edit. -/
def suggestions (r : Registry K) (name : String) (operands : List Shape) : List String :=
  match r.named name with
  | [] =>
      -- the operands do not matter to a misspelt name
      let names := (r.definitions.map (·.signature.name)).eraseDups
      Text.sorted (names.filter (Text.isNear · name))
  | known =>
      let fitting := known.filter (·.signature.operands.length == operands.length)
      Text.sorted (fitting.map (·.signature.text))

/-- The operators that have a name and take the given operands. -/
def candidates (r : Registry K) (name : String) (operands : List Shape) : List (Definition K) :=
  r.definitions.filter (·.signature.answersTo name operands)

def resolve (r : Registry K) (name : String) (operands : List Shape) :
    Except Error (Definition K) :=
  match r.candidates name operands with
  | [d] => .ok d
  | [] => .error (.noOperator name operands (r.suggestions name operands))
  | several =>
      .error (.severalResults name operands (several.map (·.signature.text)))

theorem resolve_eq_ok_iff {r : Registry K} {name : String} {operands : List Shape}
    {d : Definition K} : r.resolve name operands = .ok d ↔ r.candidates name operands = [d] := by
  rw [resolve]
  split
  · rename_i found
    rw [found]
    simp
  · rename_i none
    simp [none]
  · rename_i several _
    simpa using several d

def resolveAs (r : Registry K) (result : Shape) (name : String) (operands : List Shape) :
    Except Error (Definition K) :=
  match r.find? ⟨result, name, operands⟩ with
  | some d => .ok d
  | none => .error (.noOperator name operands (r.suggestions name operands))

/-- The definitions, of one name or of all, in increasing order of their texts. -/
def listing (r : Registry K) (name : Option String) : List (Definition K) :=
  Text.sortedBy (·.signature.text)
    (r.definitions.filter fun d => name.all (· == d.signature.name))

end Registry

end SymbolicLinalg
