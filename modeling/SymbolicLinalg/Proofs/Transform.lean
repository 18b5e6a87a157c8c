import Mathlib.Tactic.IntervalCases
import SymbolicLinalg.Proofs.Algebra
import SymbolicLinalg.Proofs.Meaning

/-!
# Transform — the matrices of rotations, shifts and axis scalings

The rotations about a coordinate axis are tables of cells, the shift and the axis scaling put three
scalars into the identity matrix, and the rotation about any axis follows the formula of Rodrigues.
Over a field each of them is the identity where its optimization says so.
-/

namespace SymbolicLinalg

namespace Standard

/-! ## Matrices and columns -/

theorem IsColumn.dims {m v : Shape} (h : IsColumn m v) :
    m.isMatrix = true ∧ m.HasDims v.rows v.rows ∧ v.HasDims v.rows 1 := by
  simp only [IsColumn, List.mem_cons, List.not_mem_nil, or_false, Prod.mk.injEq] at h
  rcases h with ⟨rfl, rfl⟩ | ⟨rfl, rfl⟩ <;> decide

theorem IsColumn.matrix_ne {m v : Shape} (h : IsColumn m v) : m ≠ .genericScalar := by
  rintro rfl
  exact absurd h.dims.1 (by decide)

theorem IsColumn.column_ne {m v : Shape} (h : IsColumn m v) : v ≠ .genericScalar := by
  rintro rfl
  simp [IsColumn] at h

variable {K : Type} [Arithmetic K] [Field K] [FieldArithmetic K]

/-! ## Rotations about a coordinate axis -/

/-- Where the cells of a rotation are one at the angle zero, and where they are zero. -/
theorem AxisRotation.cells_at_rest : ∀ r ∈ axisRotations, r.shape.isMatrix = true ∧
    ∀ i < r.shape.size,
      if r.shape.rowOf i = r.shape.colOf i then r.cell i = .one ∨ r.cell i = .cos
      else r.cell i = .zero ∨ r.cell i = .sin ∨ r.cell i = .negSin := by
  decide

/-- There is nothing to rotate by the angle zero. -/
theorem AxisRotation.value_zero [AngleArithmetic K] {r : AxisRotation} (h : r ∈ axisRotations) :
    r.value (Arithmetic.zero : K) = .one r.shape := by
  rcases AxisRotation.cells_at_rest r h with ⟨matrix, cells⟩
  have shape : (r.value (Arithmetic.zero : K)).HasShape r.shape := Literal.hasShape_ofFn _ _
  refine shape.ext (Literal.hasShape_one _) ?_
  intro i hi
  have cell := cells i hi
  rw [AxisRotation.value, Literal.component_ofFn hi, Literal.one, Literal.component_ofFn hi, matrix]
  split at cell
  · rename_i diagonal
    rcases cell with cell | cell <;> simp [cell, Cell.value, diagonal]
  · rename_i off
    rcases cell with cell | cell | cell <;> simp [cell, Cell.value, off]

/-! ## Scalars in the identity matrix -/

namespace Operator

omit [Field K] [FieldArithmetic K] in
/-- Three equal scalars in the identity matrix. -/
theorem component_filled_of_eq (positions : List Nat) {values : List (Literal K)} {x : K}
    (same : ∀ k < positions.length, scalarAt values k = x) {i : Nat}
    (hi : i < Shape.mat44.size) :
    (filled positions values).component i =
      if i ∈ positions then x else (Literal.one .mat44).component i := by
  rw [filled, Literal.component_ofFn hi, filledComponent, operandPlace?]
  cases place : positions.idxOf? i with
  | none =>
      have absent : i ∉ positions := by simpa using place
      rw [if_neg absent]
  | some k =>
      have found : k < positions.length ∧ i ∈ positions := by
        rw [List.idxOf?_eq_some_iff] at place
        rcases place with ⟨lt, at_k, _⟩
        exact ⟨lt, at_k ▸ List.getElem_mem lt⟩
      rw [if_pos found.2]
      exact same k found.1

theorem component_one_mat44 {i : Nat} (hi : i < Shape.mat44.size) :
    (Literal.one .mat44 : Literal K).component i = if i ∈ [0, 5, 10, 15] then 1 else 0 := by
  have diagonal : ∀ j < Shape.mat44.size,
      Shape.mat44.rowOf j = Shape.mat44.colOf j ↔ j ∈ [0, 5, 10, 15] := by
    decide
  rw [Literal.one, Literal.component_ofFn hi]
  by_cases member : i ∈ [0, 5, 10, 15]
  · rw [if_pos member, (diagonal i hi).2 member]
    simp
  · have off : Shape.mat44.rowOf i ≠ Shape.mat44.colOf i := fun h => member ((diagonal i hi).1 h)
    rw [if_neg member]
    simp [off, Shape.isMatrix]

variable {values : List (Literal K)}

/-- A shift by nothing. -/
theorem filled_shift_zero (zeros : ∀ k < 3, scalarAt values k = 0) :
    filled [12, 13, 14] values = .one .mat44 := by
  have shape : (filled [12, 13, 14] values).HasShape .mat44 := Literal.hasShape_ofFn _ _
  refine shape.ext (Literal.hasShape_one _) ?_
  intro i hi
  rw [component_filled_of_eq [12, 13, 14] zeros hi]
  split
  · rename_i member
    have off : i ∉ [0, 5, 10, 15] := by
      simp only [List.mem_cons, List.not_mem_nil, or_false] at member ⊢
      omega
    rw [component_one_mat44 hi, if_neg off]
  · rfl

/-- A scaling by ones. -/
theorem filled_scaling_one (ones : ∀ k < 3, scalarAt values k = 1) :
    filled [0, 5, 10] values = .one .mat44 := by
  have shape : (filled [0, 5, 10] values).HasShape .mat44 := Literal.hasShape_ofFn _ _
  refine shape.ext (Literal.hasShape_one _) ?_
  intro i hi
  rw [component_filled_of_eq [0, 5, 10] ones hi]
  split
  · rename_i member
    have diagonal : i ∈ [0, 5, 10, 15] := by
      simp only [List.mem_cons, List.not_mem_nil, or_false] at member ⊢
      omega
    rw [component_one_mat44 hi, if_pos diagonal]
  · rfl

/-- A scaling by zeros keeps the last component of the diagonal. -/
theorem filled_scaling_zero (zeros : ∀ k < 3, scalarAt values k = 0) :
    filled [0, 5, 10] values = .oneHot .mat44 15 := by
  have shape : (filled [0, 5, 10] values).HasShape .mat44 := Literal.hasShape_ofFn _ _
  refine shape.ext (Literal.hasShape_oneHot _ _) ?_
  intro i hi
  rw [component_filled_of_eq [0, 5, 10] zeros hi, component_one_mat44 hi, Literal.oneHot,
    Literal.component_ofFn hi, RingArithmetic.one_eq, RingArithmetic.zero_eq]
  by_cases last : i = 15
  · subst last
    simp
  · by_cases member : i ∈ [0, 5, 10]
    · rw [if_pos member, if_neg last]
    · have off : i ∉ [0, 5, 10, 15] := by
        simp only [List.mem_cons, List.not_mem_nil, or_false] at member ⊢
        omega
      rw [if_neg member, if_neg off, if_neg last]

end Operator

/-! ## Rotations about any axis -/

theorem rodriguesComponent_at_rest (k : Literal K) {row col : Nat} (hr : row < 4) (hc : col < 4) :
    rodriguesComponent k 1 0 row col = if row = col then 1 else 0 := by
  by_cases last : row = 3 ∨ col = 3
  · rcases last with rfl | rfl
    · interval_cases col <;> simp [rodriguesComponent]
    · interval_cases row <;> simp [rodriguesComponent]
  · have bounds : row < 3 ∧ col < 3 := by omega
    rcases bounds with ⟨hr, hc⟩
    interval_cases row <;> interval_cases col <;> simp [rodriguesComponent]

theorem rodrigues_zero [AngleArithmetic K] (axis : Literal K) :
    rodrigues axis Arithmetic.zero = .one .mat44 := by
  rw [rodrigues]
  dsimp only
  split
  · rfl
  · refine (Literal.hasShape_ofFn _ _).ext (Literal.hasShape_one _) ?_
    intro i hi
    have row : Shape.mat44.rowOf i < 4 := Shape.rowOf_lt .mat44 i
    have col : Shape.mat44.colOf i < 4 := Shape.colOf_lt hi
    rw [Literal.component_ofFn hi, Literal.one, Literal.component_ofFn hi, RingArithmetic.zero_eq,
      AngleArithmetic.cos_zero, AngleArithmetic.sin_zero, rodriguesComponent_at_rest _ row col]
    by_cases same : Shape.mat44.rowOf i = Shape.mat44.colOf i <;> simp [same, Shape.isMatrix]

end Standard

end SymbolicLinalg
