import Mathlib.LinearAlgebra.Matrix.Notation
import Mathlib.Tactic.LinearCombination
import Mathlib.Tactic.Module
import SymbolicLinalg.Proofs.Algebra
import SymbolicLinalg.Proofs.Euclidean
import SymbolicLinalg.Proofs.Meaning

/-!
# AxisAngle — rotations about any axis

The matrix of a rotation by an angle about a unit vector is a combination of four: the identity of
space, the matrix of the cross product with the vector, the projection onto the vector, and the corner
of homogeneous coordinates.  How these multiply is all there is to know of a rotation.

* `rodrigues_eq`: the formula of Rodrigues is that combination;
* `axisAngleRotation_rotates`: what the operator folds to is a rotation, leaves its axis alone, and is
  the rotation of its own about a coordinate axis.
-/

namespace SymbolicLinalg

/-! ## Vectors of space -/

namespace Literal

variable {K : Type} {a : Literal K}

/-- The vector of three components. -/
def vec3 (x y z : K) : Literal K :=
  ⟨.vec3, [x, y, z]⟩

/-- A vector as a direction in homogeneous coordinates. -/
def direction [Arithmetic K] (a : Literal K) : Literal K :=
  ⟨.vec4, a.components ++ [Arithmetic.zero]⟩

theorem HasShape.exists_vec3 (h : a.HasShape .vec3) : ∃ x y z, a = vec3 x y z := by
  rcases a with ⟨s, components⟩
  obtain rfl := h.shape
  rcases List.length_eq_three.1 h.length with ⟨x, y, z, rfl⟩
  exact ⟨x, y, z, rfl⟩

theorem HasShape.direction [Arithmetic K] (h : a.HasShape .vec3) : a.direction.HasShape .vec4 :=
  .of_length rfl (by simp [Literal.direction, h.length, Shape.size, Shape.rows, Shape.cols])

end Literal

namespace Standard

open Matrix

variable {K : Type} [Field K]

/-! ## The matrices of a rotation -/

/-- The identity of the fourth coordinate. -/
def cornerMatrix : Matrix (Fin 4) (Fin 4) K :=
  diagonal ![0, 0, 0, 1]

/-- The cross product with a vector. -/
def crossMatrix (x y z : K) : Matrix (Fin 4) (Fin 4) K :=
  !![0, -z, y, 0; z, 0, -x, 0; -y, x, 0, 0; 0, 0, 0, 0]

/-- A vector as a direction in homogeneous coordinates. -/
def directionMatrix (x y z : K) : Matrix (Fin 4) (Fin 1) K :=
  !![x; y; z; 0]

/-- The projection onto a unit vector. -/
def projectionMatrix (x y z : K) : Matrix (Fin 4) (Fin 4) K :=
  directionMatrix x y z * (directionMatrix x y z)ᵀ

/-- The rotation about a unit vector by an angle of the given cosine and sine. -/
def rotationMatrix (x y z c s : K) : Matrix (Fin 4) (Fin 4) K :=
  c • (1 - cornerMatrix) + s • crossMatrix x y z + (1 - c) • projectionMatrix x y z + cornerMatrix

section

variable (x y z : K)

theorem transpose_corner : (cornerMatrix : Matrix (Fin 4) (Fin 4) K)ᵀ = cornerMatrix :=
  diagonal_transpose _

theorem corner_mul_corner : (cornerMatrix * cornerMatrix : Matrix (Fin 4) (Fin 4) K) =
    cornerMatrix := by
  rw [cornerMatrix, diagonal_mul_diagonal]
  congr 1
  ext i
  fin_cases i <;> simp

theorem corner_mul_direction :
    (cornerMatrix : Matrix (Fin 4) (Fin 4) K) * directionMatrix x y z = 0 := by
  ext i j
  fin_cases i <;> fin_cases j <;> simp [cornerMatrix, directionMatrix, diagonal_mul]

theorem transpose_cross : (crossMatrix x y z)ᵀ = -crossMatrix x y z := by
  ext i j
  fin_cases i <;> fin_cases j <;> simp [crossMatrix]

theorem cross_mul_corner : crossMatrix x y z * cornerMatrix = 0 := by
  ext i j
  fin_cases i <;> fin_cases j <;> simp [cornerMatrix, crossMatrix, mul_diagonal]

/-- A vector has no cross product with itself. -/
theorem cross_mul_direction : crossMatrix x y z * directionMatrix x y z = 0 := by
  ext i j
  fin_cases i <;> fin_cases j <;>
    simp [crossMatrix, directionMatrix, Matrix.mul_apply, Fin.sum_univ_four] <;> ring

theorem transpose_projection : (projectionMatrix x y z)ᵀ = projectionMatrix x y z := by
  rw [projectionMatrix, transpose_mul, transpose_transpose]

theorem projection_apply (i j : Fin 4) : projectionMatrix x y z i j =
    directionMatrix x y z i 0 * directionMatrix x y z j 0 := by
  rw [projectionMatrix, Matrix.mul_apply, Fin.sum_univ_one, transpose_apply]

/-- Taking the cross product twice leaves the part across the vector, turned around. -/
theorem cross_mul_cross : crossMatrix x y z * crossMatrix x y z =
    projectionMatrix x y z - (x * x + y * y + z * z) • (1 - cornerMatrix) := by
  ext i j
  fin_cases i <;> fin_cases j <;>
    simp [crossMatrix, projection_apply, directionMatrix, cornerMatrix, Matrix.mul_apply,
      Fin.sum_univ_four] <;> ring

theorem cross_mul_projection : crossMatrix x y z * projectionMatrix x y z = 0 := by
  rw [projectionMatrix, ← Matrix.mul_assoc, cross_mul_direction, Matrix.zero_mul]

theorem corner_mul_projection : cornerMatrix * projectionMatrix x y z = 0 := by
  rw [projectionMatrix, ← Matrix.mul_assoc, corner_mul_direction, Matrix.zero_mul]

/-- In homogeneous coordinates nothing is shifted. -/
theorem rotation_lastColumn (c s : K) (row : Fin 4) :
    rotationMatrix x y z c s row 3 = if row = 3 then 1 else 0 := by
  fin_cases row <;>
    simp [rotationMatrix, crossMatrix, cornerMatrix, projection_apply, directionMatrix]

theorem rotation_lastRow (c s : K) (col : Fin 4) :
    rotationMatrix x y z c s 3 col = if col = 3 then 1 else 0 := by
  fin_cases col <;>
    simp [rotationMatrix, crossMatrix, cornerMatrix, projection_apply, directionMatrix]

-- in the other order the products are transposes of these

theorem corner_mul_cross : cornerMatrix * crossMatrix x y z = 0 := by
  rw [← neg_neg (crossMatrix x y z), ← transpose_cross, ← transpose_corner, Matrix.mul_neg,
    ← transpose_mul, cross_mul_corner, transpose_zero, neg_zero]

theorem projection_mul_cross : projectionMatrix x y z * crossMatrix x y z = 0 := by
  rw [← neg_neg (crossMatrix x y z), ← transpose_cross, ← transpose_projection, Matrix.mul_neg,
    ← transpose_mul, cross_mul_projection, transpose_zero, neg_zero]

theorem projection_mul_corner : projectionMatrix x y z * cornerMatrix = 0 := by
  rw [← transpose_projection, ← transpose_corner, ← transpose_mul, corner_mul_projection,
    transpose_zero]

end

section

variable {x y z c s : K} (unit : x * x + y * y + z * z = 1)

include unit

theorem direction_mul_direction : (directionMatrix x y z)ᵀ * directionMatrix x y z = 1 := by
  ext i j
  fin_cases i; fin_cases j
  simpa [directionMatrix, Matrix.mul_apply, Fin.sum_univ_four] using unit

theorem projection_mul_direction :
    projectionMatrix x y z * directionMatrix x y z = directionMatrix x y z := by
  rw [projectionMatrix, Matrix.mul_assoc, direction_mul_direction unit, Matrix.mul_one]

theorem projection_mul_projection :
    projectionMatrix x y z * projectionMatrix x y z = projectionMatrix x y z := by
  calc projectionMatrix x y z * projectionMatrix x y z
      = projectionMatrix x y z * directionMatrix x y z * (directionMatrix x y z)ᵀ := by
        rw [Matrix.mul_assoc, ← projectionMatrix]
    _ = projectionMatrix x y z := by rw [projection_mul_direction unit, ← projectionMatrix]

/-- A rotation is orthogonal. -/
theorem transpose_rotation_mul_rotation (circle : c * c + s * s = 1) :
    (rotationMatrix x y z c s)ᵀ * rotationMatrix x y z c s = 1 := by
  have transposed : (rotationMatrix x y z c s)ᵀ = c • (1 - cornerMatrix) - s • crossMatrix x y z +
      (1 - c) • projectionMatrix x y z + cornerMatrix := by
    simp only [rotationMatrix, transpose_add, transpose_smul, Matrix.transpose_sub, transpose_one,
      transpose_corner, transpose_cross, transpose_projection, smul_neg, ← sub_eq_add_neg]
  have squared : crossMatrix x y z * crossMatrix x y z =
      projectionMatrix x y z - (1 - cornerMatrix) := by
    rw [cross_mul_cross, unit, one_smul]
  calc (rotationMatrix x y z c s)ᵀ * rotationMatrix x y z c s
      = (c * c + s * s) • (1 - cornerMatrix - projectionMatrix x y z) + projectionMatrix x y z +
          cornerMatrix := by
        rw [transposed, rotationMatrix]
        simp only [Matrix.add_mul, Matrix.sub_mul, Matrix.mul_add, Matrix.mul_sub, Matrix.smul_mul,
          Matrix.mul_smul, Matrix.one_mul, Matrix.mul_one, corner_mul_corner, corner_mul_cross,
          cross_mul_corner, corner_mul_projection, projection_mul_corner, cross_mul_projection,
          projection_mul_cross, projection_mul_projection unit, squared]
        module
    _ = 1 := by
        rw [circle]
        module

/-- A rotation leaves its axis alone. -/
theorem rotation_mul_direction :
    rotationMatrix x y z c s * directionMatrix x y z = directionMatrix x y z := by
  simp only [rotationMatrix, Matrix.add_mul, Matrix.smul_mul, Matrix.sub_mul, Matrix.one_mul,
    corner_mul_direction, cross_mul_direction, projection_mul_direction unit, sub_zero, smul_zero,
    add_zero]
  module

end

/-! ## Lengths -/

section

variable [LinearOrder K] [IsStrictOrderedRing K] {x y z t : K}

theorem length_sq_nonneg (x y z : K) : 0 ≤ x * x + y * y + z * z :=
  add_nonneg (add_nonneg (mul_self_nonneg x) (mul_self_nonneg y)) (mul_self_nonneg z)

variable [Arithmetic K]

omit [LinearOrder K] [IsStrictOrderedRing K] in
/-- The length of a vector. -/
def vectorLength (x y z : K) : K :=
  Arithmetic.sqrt (x * x + y * y + z * z)

variable [EuclideanArithmetic K]

theorem vectorLength_mul_self : vectorLength x y z * vectorLength x y z = x * x + y * y + z * z :=
  EuclideanArithmetic.sqrt_mul_sqrt _ (length_sq_nonneg x y z)

theorem vectorLength_eq_zero_iff : vectorLength x y z = 0 ↔ x = 0 ∧ y = 0 ∧ z = 0 := by
  rw [vectorLength, Arithmetic.sqrt_eq_zero_iff (length_sq_nonneg x y z)]
  constructor
  · intro zero
    refine ⟨?_, ?_, ?_⟩ <;> nlinarith [mul_self_nonneg x, mul_self_nonneg y, mul_self_nonneg z]
  · rintro ⟨rfl, rfl, rfl⟩
    simp

theorem vectorLength_scale (h : 0 < t) :
    vectorLength (t * x) (t * y) (t * z) = t * vectorLength x y z := by
  have square : t * x * (t * x) + t * y * (t * y) + t * z * (t * z) =
      t * vectorLength x y z * (t * vectorLength x y z) := by
    linear_combination -(t * t) * vectorLength_mul_self (x := x) (y := y) (z := z)
  rw [vectorLength, square]
  exact Arithmetic.sqrt_mul_self (mul_nonneg h.le
    (EuclideanArithmetic.sqrt_nonneg _ (length_sq_nonneg x y z)))

/-- A vector divided by its length has the length one. -/
theorem unit_of_length (ne : vectorLength x y z ≠ 0) :
    x / vectorLength x y z * (x / vectorLength x y z) +
        y / vectorLength x y z * (y / vectorLength x y z) +
      z / vectorLength x y z * (z / vectorLength x y z) = 1 := by
  have square := vectorLength_mul_self (x := x) (y := y) (z := z)
  field_simp
  rw [sq (vectorLength x y z), square]
  ring

end

/-! ## The formula of Rodrigues -/

section

variable [LinearOrder K] [IsStrictOrderedRing K] [Arithmetic K] [EuclideanArithmetic K]
  {x y z t : K}

theorem rodrigues_eq (angle : K) (ne : vectorLength x y z ≠ 0) :
    (rodrigues (.vec3 x y z) angle).toMatrix 4 4 =
      rotationMatrix (x / vectorLength x y z) (y / vectorLength x y z) (z / vectorLength x y z)
        (Arithmetic.cos angle) (Arithmetic.sin angle) := by
  have norm : Arithmetic.sqrt ((Literal.vec3 x y z).dot (.vec3 x y z)) = vectorLength x y z := by
    simp [Literal.dot, Literal.vec3, vectorLength, add_assoc]
  have nonzero : ¬ Arithmetic.isZero (vectorLength x y z) = true := by simpa using ne
  rw [rodrigues]
  dsimp only
  rw [norm, if_neg nonzero]
  ext i j
  rw [Literal.toMatrix_ofFn (by decide)]
  fin_cases i <;> fin_cases j <;>
    simp [rodriguesComponent, crossComponent, Shape.rowOf, Shape.colOf, Shape.rows, Literal.map,
      Literal.vec3, Literal.component, rotationMatrix, crossMatrix, cornerMatrix, projection_apply,
      directionMatrix] <;> ring

/-- A vector that is not zero has a length that is not. -/
theorem vectorLength_ne_zero (ne : Literal.vec3 x y z ≠ .zero .vec3) : vectorLength x y z ≠ 0 := by
  intro zero
  rcases vectorLength_eq_zero_iff.1 zero with ⟨rfl, rfl, rfl⟩
  refine ne ?_
  simp [Literal.vec3, Literal.zero, Literal.ofFn, Shape.size, Shape.rows, Shape.cols,
    List.range_succ]

omit [LinearOrder K] [IsStrictOrderedRing K] [EuclideanArithmetic K] in
theorem scale_vec3 [FieldArithmetic K] (t x y z : K) :
    (Literal.vec3 x y z).scale t = .vec3 (t * x) (t * y) (t * z) := by
  simp [Literal.scale, Literal.map, Literal.vec3]

/-- A longer axis or a shorter one, in the same direction, is as good. -/
theorem rodrigues_scale (angle : K) (ne : vectorLength x y z ≠ 0) (h : 0 < t) :
    rodrigues ((Literal.vec3 x y z).scale t) angle = rodrigues (.vec3 x y z) angle := by
  have ne' : vectorLength (t * x) (t * y) (t * z) ≠ 0 := by
    rw [vectorLength_scale h]
    exact mul_ne_zero h.ne' ne
  refine Literal.HasShape.ext_toMatrix (m := 4) (n := 4) (Operator.hasShape_rodrigues _ _)
    (Operator.hasShape_rodrigues _ _) (by decide) ?_
  rw [scale_vec3, rodrigues_eq angle ne', rodrigues_eq angle ne, vectorLength_scale h,
    mul_div_mul_left _ _ h.ne', mul_div_mul_left _ _ h.ne', mul_div_mul_left _ _ h.ne']

/-- About a unit vector the formula needs no division. -/
theorem rodrigues_unit (angle : K) (unit : x * x + y * y + z * z = 1) :
    (rodrigues (.vec3 x y z) angle).toMatrix 4 4 =
      rotationMatrix x y z (Arithmetic.cos angle) (Arithmetic.sin angle) := by
  have length : vectorLength x y z = 1 := by
    simpa [vectorLength, unit] using Arithmetic.sqrt_mul_self (zero_le_one : (0 : K) ≤ 1)
  rw [rodrigues_eq angle (by simp [length]), length, div_one, div_one, div_one]

end

/-! ## Coordinate axes -/

variable (K) in
/-- The rotations about the coordinate axes of space, each with the unit vector of its axis. -/
def coordinateAxes : List (AxisRotation × K × K × K) :=
  [(.aboutX, 1, 0, 0), (.aboutY, 0, 1, 0), (.aboutZ, 0, 0, 1)]

/-- The tables of the rotations about the coordinate axes are rotations about unit vectors. -/
theorem axisValue_eq [Arithmetic K] [FieldArithmetic K] {r : AxisRotation} {x y z : K}
    (h : (r, x, y, z) ∈ coordinateAxes K) (angle : K) :
    (r.value angle).toMatrix 4 4 =
      rotationMatrix x y z (Arithmetic.cos angle) (Arithmetic.sin angle) := by
  simp only [coordinateAxes, List.mem_cons, List.not_mem_nil, or_false, Prod.mk.injEq] at h
  have dims : r.shape.HasDims 4 4 := by
    rcases h with ⟨rfl, _⟩ | ⟨rfl, _⟩ | ⟨rfl, _⟩ <;> decide
  ext i j
  rw [AxisRotation.value, Literal.toMatrix_ofFn dims]
  rcases h with ⟨rfl, rfl, rfl, rfl⟩ | ⟨rfl, rfl, rfl, rfl⟩ | ⟨rfl, rfl, rfl, rfl⟩ <;>
    fin_cases i <;> fin_cases j <;>
      simp [AxisRotation.cell, AxisRotation.aboutX, AxisRotation.aboutY, AxisRotation.aboutZ,
        Cell.value, rotationMatrix, crossMatrix, cornerMatrix, projection_apply, directionMatrix]

/-! ## What the operators fold to -/

/-- A matrix is orthogonal, leaves an axis alone and shifts nothing. -/
structure IsRotationAbout [Arithmetic K] (m axis : Literal K) : Prop where
  shape : m.HasShape .mat44
  orthogonal : m.transpose.product m .mat44 = .one .mat44
  fixes : m.product axis.direction .vec4 = axis.direction
  lastRow : ∀ col : Fin 4, m.get 3 col = if col = 3 then Arithmetic.one else Arithmetic.zero
  lastColumn : ∀ row : Fin 4, m.get row 3 = if row = 3 then Arithmetic.one else Arithmetic.zero

/-- What the `fold` hook of an operator computes, if it has one. -/
def folded? [Arithmetic K] [Numeral K] (s : Signature) (values : List (Literal K)) :
    Option (Literal K) :=
  ((Registry.standard : Registry K).hooks s).fold.map (· values)

omit [Field K] in
theorem folded?_axisAngleRotation [Arithmetic K] [Numeral K] (axis : Literal K) (angle : K) :
    folded? Operator.axisAngleRotation.signature [axis, .scalar angle] =
      some (rodrigues axis angle) := by
  rw [folded?, Operator.hooks_eq]
  rfl

omit [Field K] in
theorem folded?_axisRotation [Arithmetic K] [Numeral K] (id : NodeId) (r : AxisRotation)
    (h : axisRotations[id]? = some r) (angle : K) :
    folded? (Operator.axisRotation id r h).signature [.scalar angle] = some (r.value angle) := by
  rw [folded?, Operator.hooks_eq]
  rfl

section

variable [LinearOrder K] [IsStrictOrderedRing K] [Arithmetic K] [EuclideanArithmetic K]
  {x y z t : K}

omit [LinearOrder K] [IsStrictOrderedRing K] [EuclideanArithmetic K] in
/-- A matrix that is a rotation about a unit vector rotates about every multiple of it. -/
theorem isRotationAbout_of_toMatrix [FieldArithmetic K] {m : Literal K} {c s : K}
    (shape : m.HasShape .mat44)
    (h : m.toMatrix 4 4 = rotationMatrix x y z c s) (circle : c * c + s * s = 1)
    (unit : x * x + y * y + z * z = 1) :
    IsRotationAbout m (.vec3 (t * x) (t * y) (t * z)) := by
  have square : Shape.mat44.HasDims 4 4 := by decide
  have column : Shape.vec4.HasDims 4 1 := by decide
  have entry (row col : Fin 4) : m.get row col = rotationMatrix x y z c s row col := by
    rw [shape.get_eq, ← h]
    rfl
  have direction : (Literal.vec3 (t * x) (t * y) (t * z)).HasShape .vec3 := .of_length rfl rfl
  have scaled : (Literal.vec3 (t * x) (t * y) (t * z)).direction.toMatrix 4 1 =
      t • directionMatrix x y z := by
    ext i j
    fin_cases i <;> fin_cases j <;>
      simp [Literal.toMatrix_apply, Literal.direction, Literal.vec3, Literal.component,
        directionMatrix]
  refine ⟨shape, ?orthogonal, ?fixes, ?row, ?column⟩
  case orthogonal =>
    refine (Literal.hasShape_product _ _ _).ext_toMatrix (Literal.hasShape_one _) square ?_
    rw [Literal.toMatrix_product shape.transpose shape square square square,
      Literal.toMatrix_transpose shape square, Literal.toMatrix_one (by decide) square, h,
      transpose_rotation_mul_rotation unit circle]
  case fixes =>
    refine (Literal.hasShape_product _ _ _).ext_toMatrix direction.direction column ?_
    rw [Literal.toMatrix_product shape direction.direction square column column, h, scaled,
      Matrix.mul_smul, rotation_mul_direction unit]
  case row =>
    intro col
    rw [RingArithmetic.one_eq, RingArithmetic.zero_eq, ← rotation_lastRow x y z c s col]
    exact entry 3 col
  case column =>
    intro row
    rw [RingArithmetic.one_eq, RingArithmetic.zero_eq, ← rotation_lastColumn x y z c s row]
    exact entry row 3

/-- About a coordinate axis the formula gives what the table of the axis does. -/
theorem rodrigues_eq_axisValue {r : AxisRotation} (shape : r.shape = .mat44)
    (h : (r, x, y, z) ∈ coordinateAxes K) (angle : K) (positive : 0 < t) :
    rodrigues (.vec3 (t * x) (t * y) (t * z)) angle = r.value angle := by
  have unit : x * x + y * y + z * z = 1 := by
    simp only [coordinateAxes, List.mem_cons, List.not_mem_nil, or_false, Prod.mk.injEq] at h
    rcases h with ⟨_, rfl, rfl, rfl⟩ | ⟨_, rfl, rfl, rfl⟩ | ⟨_, rfl, rfl, rfl⟩ <;> simp
  have ne : vectorLength x y z ≠ 0 := by
    intro zero
    rcases vectorLength_eq_zero_iff.1 zero with ⟨rfl, rfl, rfl⟩
    simp at unit
  have value : (r.value angle).HasShape .mat44 := shape ▸ Literal.hasShape_ofFn _ _
  rw [← scale_vec3, rodrigues_scale angle ne positive]
  refine (Operator.hasShape_rodrigues _ _).ext_toMatrix (m := 4) (n := 4) value (by decide) ?_
  rw [rodrigues_unit angle unit, axisValue_eq h]

theorem folded?_coordinateAxis [Numeral K] (id : NodeId) {r : AxisRotation}
    (known : axisRotations[id]? = some r) (shape : r.shape = .mat44)
    (h : (r, x, y, z) ∈ coordinateAxes K) (angle : K) (positive : 0 < t) :
    ∃ m, folded? ⟨.mat44, "mat44Rotation", [.vec3, .scalar]⟩
        [.vec3 (t * x) (t * y) (t * z), .scalar angle] = some m ∧
      folded? ⟨.mat44, r.name, [.scalar]⟩ [.scalar angle] = some m := by
  refine ⟨_, folded?_axisAngleRotation _ _, ?_⟩
  rw [rodrigues_eq_axisValue shape h angle positive, ← shape]
  exact folded?_axisRotation id r known angle

/-- What the rotation by an angle about an axis folds to is a rotation about it, whatever the length
of the axis, and about the coordinate axes it is what the rotations of their own fold to. -/
theorem axisAngleRotation_rotates [Numeral K] (angle : K) :
    (∀ axis : Literal K, axis.HasShape .vec3 → axis ≠ .zero .vec3 →
      ∃ m, folded? ⟨.mat44, "mat44Rotation", [.vec3, .scalar]⟩ [axis, .scalar angle] = some m ∧
        IsRotationAbout m axis ∧
        ∀ t, 0 < t → folded? ⟨.mat44, "mat44Rotation", [.vec3, .scalar]⟩
          [axis.scale t, .scalar angle] = some m) ∧
    ∀ t, 0 < t → ∀ about ∈ [("mat44RotationX", Literal.vec3 t 0 0),
        ("mat44RotationY", .vec3 0 t 0), ("mat44RotationZ", .vec3 0 0 t)],
      ∃ m, folded? ⟨.mat44, "mat44Rotation", [.vec3, .scalar]⟩ [about.2, .scalar angle] = some m ∧
        folded? ⟨.mat44, about.1, [.scalar]⟩ [.scalar angle] = some m := by
  constructor
  · intro axis shape ne
    rcases shape.exists_vec3 with ⟨x, y, z, rfl⟩
    have length := vectorLength_ne_zero ne
    refine ⟨_, folded?_axisAngleRotation _ _, ?_, ?_⟩
    · have rotates := isRotationAbout_of_toMatrix (t := vectorLength x y z)
        (Operator.hasShape_rodrigues _ _) (rodrigues_eq angle length)
        (EuclideanArithmetic.cos_sq_add_sin_sq angle) (unit_of_length length)
      rwa [mul_div_cancel₀ _ length, mul_div_cancel₀ _ length, mul_div_cancel₀ _ length] at rotates
    · intro t positive
      exact (folded?_axisAngleRotation _ _).trans
        (congrArg some (rodrigues_scale angle length positive))
  · intro t positive about known
    simp only [List.mem_cons, List.not_mem_nil, or_false] at known
    rcases known with rfl | rfl | rfl
    · simpa [AxisRotation.aboutX] using folded?_coordinateAxis 1 (r := .aboutX) (x := 1) (y := 0)
        (z := 0) rfl rfl (by simp [coordinateAxes]) angle positive
    · simpa [AxisRotation.aboutY] using folded?_coordinateAxis 2 (r := .aboutY) (x := 0) (y := 1)
        (z := 0) rfl rfl (by simp [coordinateAxes]) angle positive
    · simpa [AxisRotation.aboutZ] using folded?_coordinateAxis 3 (r := .aboutZ) (x := 0) (y := 0)
        (z := 1) rfl rfl (by simp [coordinateAxes]) angle positive

end

/-- The rotation by one radian about the diagonal of a box, and about the second coordinate axis. -/
theorem axisAngleRotation_rotates_diagonal :
    (∃ m, folded? ⟨.mat44, "mat44Rotation", [.vec3, .scalar]⟩
        [.vec3 1 2 2, .scalar (1 : ℝ)] = some m ∧ IsRotationAbout m (.vec3 1 2 2) ∧
      folded? ⟨.mat44, "mat44Rotation", [.vec3, .scalar]⟩
        [(Literal.vec3 1 2 2).scale 3, .scalar (1 : ℝ)] = some m) ∧
    ∃ m, folded? ⟨.mat44, "mat44Rotation", [.vec3, .scalar]⟩
        [.vec3 0 5 0, .scalar (1 : ℝ)] = some m ∧
      folded? ⟨.mat44, "mat44RotationY", [.scalar]⟩ [.scalar (1 : ℝ)] = some m := by
  have ne : Literal.vec3 (1 : ℝ) 2 2 ≠ .zero .vec3 := by
    intro zero
    have first : (Literal.vec3 (1 : ℝ) 2 2).component 0 = 0 := by
      rw [zero, Literal.component_zero, RingArithmetic.zero_eq]
    exact one_ne_zero first
  rcases (axisAngleRotation_rotates (1 : ℝ)).1 (.vec3 1 2 2) (.of_length rfl rfl) ne with
    ⟨m, value, rotates, scaled⟩
  exact ⟨⟨m, value, rotates, scaled 3 (by norm_num)⟩,
    (axisAngleRotation_rotates (1 : ℝ)).2 5 (by norm_num) ("mat44RotationY", .vec3 0 5 0)
      (List.mem_cons_of_mem _ List.mem_cons_self)⟩

end Standard

end SymbolicLinalg
