import SymbolicLinalg.Code
import SymbolicLinalg.Standard.Hooks

/-!
# Container — taking vectors and matrices apart and putting them together

A constructor is named after its shape and takes every component as a scalar, in column-major order.
A selector takes one component out: `(i)` for vectors, `(r,c)` for matrices.
-/

namespace SymbolicLinalg

namespace Standard

variable {K : Type} [Arithmetic K]

def constructor (s : Shape) : Definition K :=
  let fold := fun values : List (Literal K) => Literal.ofFn s (scalarAt values)
  { signature := ⟨s, s.name, List.replicate s.size .scalar⟩
    hooks :=
      { optimize := some (foldingOnly fold)
        deriv := some fun _ operands => do
          let derivatives ← Recipe.each derive operands
          .assemble s derivatives
        gradient := some fun g operands => do
          let _ ← Recipe.each
            (fun (operand, position) => do
              let part ← .select g position
              contribute operand part)
            operands.zipIdx
          return
        fold := some fold
        render := rendering (Target.c.container s) (Target.js.container s) } }

/-- The index of a component as the element access of a target writes it. -/
def accessIndex (s : Shape) (position : Nat) : Target → String
  | .c =>
      if s.isMatrix then toString (s.rowOf position) ++ "," ++ toString (s.colOf position)
      else toString position
  | .js =>
      if s.isMatrix then
        toString (s.rowOf position) ++ " + " ++ toString s.rows ++ "*" ++
          toString (s.colOf position)
      else toString position

def selector (s : Shape) (position : Nat) : Definition K :=
  let name := Recipe.selectorName s position
  let fold := foldOne .scalar fun a => .scalar (a.component position)
  { signature := ⟨.scalar, name, [s]⟩
    hooks :=
      { optimize := some <| foldingFirst fold <| onOne name fun a =>
          -- a component of a constructor is its operand
          return if a.applies s.name && a.operands.length == s.size then a.operands[position]?
            else none
        deriv := some fun _ => onOne name fun a => do
          let da ← derive a
          .select da position
        gradient := some fun g => onOne name fun a => do
          let basis ← .constant (.oneHot s position)
          let part ← .mul g basis
          contribute a part
        fold := some fold
        render := rendering
          (around "(" ("(" ++ accessIndex s position .c ++ "))"))
          (around "(" ("[" ++ accessIndex s position .js ++ "])")) } }

def selectors (s : Shape) : List (Definition K) :=
  (List.range s.size).map (selector s)

end Standard

end SymbolicLinalg
