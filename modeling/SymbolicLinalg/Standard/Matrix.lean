import SymbolicLinalg.Standard.Hooks

/-!
# Matrix — transposes and products

The gradients of the products are the usual adjoints: for `C = A B` they are `G Bᵀ` and `Aᵀ G`, for
`y = A x` they are `g xᵀ` and `Aᵀ g`, and for `C = u vᵀ` they are `G v` and `Gᵀ u`.
-/

namespace SymbolicLinalg

namespace Standard

variable {K : Type} [Arithmetic K]

def transposition (s : Shape) : Definition K :=
  let fold := foldOne s Literal.transpose
  { signature := ⟨s, "trans", [s]⟩
    hooks :=
      { optimize := some <| foldingFirst fold <| onOne "trans" fun a =>
          -- transposing twice changes nothing
          if a.applies "trans" then some <$> firstOperand "trans" a else return none
        deriv := some fun _ => onOne "trans" fun a => do
          let da ← derive a
          .trans da
        gradient := some fun g => onOne "trans" fun a => do
          let transposed ← .trans g
          contribute a transposed
        fold := some fold
        render := rendering (call "trans") (call (helper "trans" [s])) } }

def matrixProduct (s : Shape) : Definition K :=
  let fold := foldTwo s fun a b => a.product b s
  { signature := ⟨s, "*", [s, s]⟩
    hooks :=
      { optimize := some <| foldingFirst fold <| onTwo "*" fun a b =>
          return if a.isZero || b.isOne then some a
            else if b.isZero || a.isOne then some b else none
        deriv := some fun _ => onTwo "*" productRule
        gradient := some fun g => onTwo "*" fun a b => do
          let right ← .trans b
          let da ← .mul g right
          contribute a da
          let left ← .trans a
          let db ← .mul left g
          contribute b db
        fold := some fold
        render := rendering (between "*") (call (helper "mul" [s, s])) } }

/-- A matrix times a column. -/
def columnProduct (matrix column : Shape) : Definition K :=
  let fold := foldTwo column fun a b => a.product b column
  { signature := ⟨column, "*", [matrix, column]⟩
    hooks :=
      { optimize := some <| foldingFirst fold <| onTwo "*" fun a b =>
          if a.isZero then some <$> .constant (.zero column)
          else return if b.isZero || a.isOne then some b else none
        deriv := some fun _ => onTwo "*" productRule
        gradient := some fun g => onTwo "*" fun a x => do
          let da ← .outer g x
          contribute a da
          let left ← .trans a
          let dx ← .mul left g
          contribute x dx
        fold := some fold
        render := rendering (between "*") (call (helper "mul" [matrix, column])) } }

/-- A column times a row. -/
def outerProduct (matrix column : Shape) : Definition K :=
  let fold := foldTwo matrix fun a b => Literal.outer a b matrix
  { signature := ⟨matrix, "outer", [column, column]⟩
    hooks :=
      { optimize := some <| foldingFirst fold <| onTwo "outer" fun a b =>
          if a.isZero || b.isZero then some <$> .constant (.zero matrix) else return none
        deriv := some fun _ => onTwo "outer" fun a b => do
          let da ← derive a
          let db ← derive b
          let left ← .outer da b
          let right ← .outer a db
          .add left right
        gradient := some fun g => onTwo "outer" fun u v => do
          let du ← .mul g v
          contribute u du
          let transposed ← .trans g
          let dv ← .mul transposed u
          contribute v dv
        fold := some fold
        render := rendering
          (fun
            | [u, v] => "(" ++ u ++ " * trans(" ++ v ++ "))"
            | operands => call "outer" operands)
          (call (helper "outer" [column, column])) } }

end Standard

end SymbolicLinalg
