import SymbolicLinalg.Proofs.Component
import SymbolicLinalg.Proofs.Operator

/-!
# Meaning — the values of the standard operators

One equation for each family says what the operator does to literals.  From them follow two general
facts: the value of an operator has the shape of its result, and a map of arithmetics carries the
value over.
-/

namespace SymbolicLinalg

namespace Standard

variable {K L : Type} [Arithmetic K] [Numeral K] [Arithmetic L] [Numeral L]

namespace Operator

/-- What the operator means, over the values of its operands. -/
def value (o : Operator) (values : List (Literal K)) : Literal K :=
  Standard.meaning o.signature values

/-- The operator has the `fold` hook, so this is its meaning. -/
theorem value_eq {o : Operator} {fold : List (Literal K) → Literal K}
    (h : (o.definition : Definition K).hooks.fold = some fold) (values : List (Literal K)) :
    o.value values = fold values := by
  rw [value, Standard.meaning, o.hooks_eq, h]

/-! ## Equations -/

section

variable (a b : Literal K) (s : Shape) (values : List (Literal K))

@[simp] theorem value_addition (h : s ≠ .genericScalar) :
    (addition s h).value [a, b] = .zipWith Arithmetic.add a b :=
  value_eq (o := addition s h) rfl _

@[simp] theorem value_subtraction (h : s ≠ .genericScalar) :
    (subtraction s h).value [a, b] = .zipWith Arithmetic.sub a b :=
  value_eq (o := subtraction s h) rfl _

@[simp] theorem value_negation : negation.value [a] = a.map Arithmetic.neg :=
  value_eq (o := negation) rfl _

@[simp] theorem value_multiplication :
    multiplication.value [a, b] = .zipWith Arithmetic.mul a b :=
  value_eq (o := multiplication) rfl _

@[simp] theorem value_division : division.value [a, b] = .zipWith Arithmetic.div a b :=
  value_eq (o := division) rfl _

@[simp] theorem value_cosine : cosine.value [a] = a.map Arithmetic.cos :=
  value_eq (o := cosine) rfl _

@[simp] theorem value_sine : sine.value [a] = a.map Arithmetic.sin :=
  value_eq (o := sine) rfl _

@[simp] theorem value_scaling (h : s.isScalar = false) :
    (scaling s h).value [a, b] = b.scale (a.component 0) :=
  value_eq (o := scaling s h) rfl _

@[simp] theorem value_innerProduct (h : s.isScalar = false) :
    (innerProduct s h).value [a, b] = .scalar (a.dot b) :=
  value_eq (o := innerProduct s h) rfl _

@[simp] theorem value_constructor (h : s.isScalar = false) :
    (constructor s h).value values = .ofFn s (scalarAt values) :=
  value_eq (o := constructor s h) rfl _

@[simp] theorem value_selector (h : s.isScalar = false) (i : Nat) (lt : i < s.size) :
    (selector s h i lt).value [a] = .scalar (a.component i) :=
  value_eq (o := selector s h i lt) rfl _

@[simp] theorem value_transposition (h : s.isMatrix = true) :
    (transposition s h).value [a] = a.transpose :=
  value_eq (o := transposition s h) rfl _

@[simp] theorem value_matrixProduct (h : s.isMatrix = true) :
    (matrixProduct s h).value [a, b] = a.product b s :=
  value_eq (o := matrixProduct s h) rfl _

@[simp] theorem value_columnProduct (m v : Shape) (h : IsColumn m v) :
    (columnProduct m v h).value [a, b] = a.product b v :=
  value_eq (o := columnProduct m v h) rfl _

@[simp] theorem value_outerProduct (m v : Shape) (h : IsColumn m v) :
    (outerProduct m v h).value [a, b] = .outer a b m :=
  value_eq (o := outerProduct m v h) rfl _

@[simp] theorem value_axisRotation (id : NodeId) (r : AxisRotation)
    (h : axisRotations[id]? = some r) :
    (axisRotation id r h).value [a] = r.value (a.component 0) :=
  value_eq (o := axisRotation id r h) rfl _

/-- The component at a position: a scalar that is put there, or else what is there anyway. -/
def filledComponent (positions : List Nat) (values : List (Literal K)) (rest : Nat → K)
    (i : Nat) : K :=
  match operandPlace? positions i with
  | some k => scalarAt values k
  | none => rest i

/-- The identity matrix with scalars at the given positions. -/
def filled (positions : List Nat) (values : List (Literal K)) : Literal K :=
  .ofFn .mat44 (filledComponent positions values (Literal.one .mat44).component)

@[simp] theorem value_shift : shift.value values = filled [12, 13, 14] values :=
  value_eq (o := shift) rfl _

@[simp] theorem value_axisScaling : axisScaling.value values = filled [0, 5, 10] values :=
  value_eq (o := axisScaling) rfl _

@[simp] theorem value_axisAngleRotation :
    axisAngleRotation.value [a, b] = rodrigues a (b.component 0) :=
  value_eq (o := axisAngleRotation) rfl _

@[simp] theorem value_fromHomogeneous : fromHomogeneous.value [a] = dehomogenized a := by
  rw [value, Standard.meaning, fromHomogeneous.hooks_eq]
  rfl

end

/-! ## Shapes -/

omit [Numeral K] in
theorem hasShape_rodrigues (axis : Literal K) (angle : K) :
    (rodrigues axis angle).HasShape .mat44 := by
  rw [rodrigues]
  dsimp only
  split
  · exact Literal.hasShape_one _
  · exact Literal.hasShape_ofFn _ _

/-- The value of an operator has the shape of its result. -/
theorem hasShape_value (o : Operator) {values : List (Literal K)}
    (h : List.Forall₂ Literal.HasShape values o.signature.operands) :
    (o.value values).HasShape o.signature.result := by
  cases o with
  | constructor s _ =>
      rw [value_constructor]
      exact Literal.hasShape_ofFn s _
  | shift =>
      rw [value_shift]
      exact Literal.hasShape_ofFn _ _
  | axisScaling =>
      rw [value_axisScaling]
      exact Literal.hasShape_ofFn _ _
  | negation | cosine | sine =>
      rcases h with _ | ⟨ha, _ | _⟩
      simp only [value_negation, value_cosine, value_sine]
      exact ha.map _
  | transposition s _ =>
      rcases h with _ | ⟨ha, _ | _⟩
      rw [value_transposition]
      exact ha.transpose
  | selector s _ i _ =>
      rcases h with _ | ⟨ha, _ | _⟩
      rw [value_selector]
      exact Literal.hasShape_scalar _
  | axisRotation id r _ =>
      rcases h with _ | ⟨ha, _ | _⟩
      rw [value_axisRotation]
      exact Literal.hasShape_ofFn _ _
  | fromHomogeneous =>
      rcases h with _ | ⟨ha, _ | _⟩
      rw [value_fromHomogeneous]
      exact Literal.hasShape_ofFn _ _
  | addition s _ | subtraction s _ =>
      rcases h with _ | ⟨ha, _ | ⟨hb, _ | _⟩⟩
      simp only [value_addition, value_subtraction]
      exact ha.zipWith hb _
  | multiplication | division =>
      rcases h with _ | ⟨ha, _ | ⟨hb, _ | _⟩⟩
      simp only [value_multiplication, value_division]
      exact ha.zipWith hb _
  | scaling s _ =>
      rcases h with _ | ⟨ha, _ | ⟨hb, _ | _⟩⟩
      rw [value_scaling]
      exact hb.scale _
  | innerProduct s _ =>
      rcases h with _ | ⟨ha, _ | ⟨hb, _ | _⟩⟩
      rw [value_innerProduct]
      exact Literal.hasShape_scalar _
  | matrixProduct s _ | columnProduct m v _ =>
      rcases h with _ | ⟨ha, _ | ⟨hb, _ | _⟩⟩
      simp only [value_matrixProduct, value_columnProduct]
      exact Literal.hasShape_product _ _ _
  | outerProduct m v _ =>
      rcases h with _ | ⟨ha, _ | ⟨hb, _ | _⟩⟩
      rw [value_outerProduct]
      exact Literal.hasShape_outer _ _ _
  | axisAngleRotation =>
      rcases h with _ | ⟨ha, _ | ⟨hb, _ | _⟩⟩
      rw [value_axisAngleRotation]
      exact hasShape_rodrigues _ _

/-! ## Maps of arithmetics -/

section

variable {f : K → L} (hom : Arithmetic.Hom f)

include hom

omit [Numeral K] [Numeral L] in
theorem convert_axisValue (r : AxisRotation) (angle : K) :
    (r.value angle).convert f = r.value (f angle) := by
  have cell (c : Cell) (x y : K) : f (c.value x y) = c.value (f x) (f y) := by
    cases c with
    | zero => exact hom.zero
    | one => exact hom.one
    | cos | sin => rfl
    | negSin => exact hom.neg y
  rw [AxisRotation.value, Literal.convert_ofFn, AxisRotation.value]
  simp only [cell, hom.cos, hom.sin]

omit [Numeral K] [Numeral L] in
theorem scalarAt_convert (values : List (Literal K)) (place : Nat) :
    scalarAt (values.map (Literal.convert f)) place = f (scalarAt values place) := by
  rw [scalarAt, scalarAt, ← Literal.component_convert hom.zero, ← Literal.convert_zero hom]
  simp [List.getD_eq_getElem?_getD, Option.getD_map]

omit [Numeral K] [Numeral L] in
theorem convert_filled (positions : List Nat) (values : List (Literal K)) :
    (filled positions values).convert f = filled positions (values.map (Literal.convert f)) := by
  rw [filled, Literal.convert_ofFn, filled]
  congr 1
  funext i
  rw [filledComponent, filledComponent]
  cases operandPlace? positions i with
  | some k => exact (scalarAt_convert hom values k).symm
  | none =>
      change f ((Literal.one .mat44).component i) = (Literal.one .mat44).component i
      rw [← Literal.component_convert hom.zero, Literal.convert_one hom]

omit [Numeral K] [Numeral L] in
theorem convert_dehomogenized (p : Literal K) :
    (dehomogenized p).convert f = dehomogenized (p.convert f) := by
  rw [dehomogenized, Literal.convert_ofFn, dehomogenized]
  simp only [hom.div, Literal.component_convert hom.zero]

omit [Numeral K] [Numeral L] in
theorem convert_crossComponent (k : Literal K) (row col : Nat) :
    f (crossComponent k row col) = crossComponent (k.convert f) row col := by
  unfold crossComponent
  split <;> simp only [hom.zero, hom.neg, Literal.component_convert hom.zero]

omit [Numeral K] [Numeral L] in
theorem convert_rodriguesComponent (k : Literal K) (c s : K) (row col : Nat) :
    f (rodriguesComponent k c s row col) =
      rodriguesComponent (k.convert f) (f c) (f s) row col := by
  unfold rodriguesComponent
  split
  · exact hom.one
  · exact hom.zero
  · exact hom.zero
  · simp only [hom.add, hom.mul, hom.sub, hom.one, hom.zero, apply_ite f,
      convert_crossComponent hom, Literal.component_convert hom.zero]

omit [Numeral K] [Numeral L] in
/-- A map that keeps apart what is zero carries the rotation about any axis over. -/
theorem convert_rodrigues (zero : ∀ x, Arithmetic.isZero (f x) = Arithmetic.isZero x)
    (axis : Literal K) (angle : K) :
    (rodrigues axis angle).convert f = rodrigues (axis.convert f) (f angle) := by
  -- the length of the axis and the axis of length one are carried over
  have norm : f (Arithmetic.sqrt (axis.dot axis)) =
      Arithmetic.sqrt ((axis.convert f).dot (axis.convert f)) := by
    rw [hom.sqrt, Literal.convert_dot hom]
  have unit : (axis.map fun x => Arithmetic.div x (Arithmetic.sqrt (axis.dot axis))).convert f =
      (axis.convert f).map fun x =>
        Arithmetic.div x (Arithmetic.sqrt ((axis.convert f).dot (axis.convert f))) := by
    rw [← norm]
    exact Literal.convert_map (fun x => hom.div x _) axis
  rw [rodrigues, rodrigues]
  dsimp only
  rw [← norm, zero]
  split
  · exact Literal.convert_one hom _
  · rw [Literal.convert_ofFn, norm, ← unit]
    simp only [convert_rodriguesComponent hom, hom.cos, hom.sin]

/-- A map of arithmetics carries the value of an operator over.  The rotation about an axis tests
the length of the axis for zero, and maps need not carry comparisons over. -/
theorem convert_value (o : Operator) {values : List (Literal K)}
    (h : values.length = o.signature.operands.length) (ne : o ≠ .axisAngleRotation) :
    (o.value values).convert f = o.value (values.map (Literal.convert f)) := by
  cases o with
  | constructor s _ =>
      rw [value_constructor, Literal.convert_ofFn, value_constructor]
      congr 1
      funext i
      exact (scalarAt_convert hom values i).symm
  | shift => rw [value_shift, convert_filled hom, value_shift]
  | axisScaling => rw [value_axisScaling, convert_filled hom, value_axisScaling]
  -- here the length of the axis is tested
  | axisAngleRotation => exact absurd rfl ne
  | negation =>
      rcases List.length_eq_one_iff.1 h with ⟨a, rfl⟩
      simp [Literal.convert_map hom.neg]
  | cosine =>
      rcases List.length_eq_one_iff.1 h with ⟨a, rfl⟩
      simp [Literal.convert_map hom.cos]
  | sine =>
      rcases List.length_eq_one_iff.1 h with ⟨a, rfl⟩
      simp [Literal.convert_map hom.sin]
  | transposition s _ =>
      rcases List.length_eq_one_iff.1 h with ⟨a, rfl⟩
      simp [Literal.convert_transpose hom]
  | selector s _ i _ =>
      rcases List.length_eq_one_iff.1 h with ⟨a, rfl⟩
      simp [Literal.convert_scalar, Literal.component_convert hom.zero]
  | axisRotation id r _ =>
      rcases List.length_eq_one_iff.1 h with ⟨a, rfl⟩
      simp [convert_axisValue hom, Literal.component_convert hom.zero]
  | fromHomogeneous =>
      rcases List.length_eq_one_iff.1 h with ⟨a, rfl⟩
      simp [convert_dehomogenized hom]
  | addition s _ =>
      rcases List.length_eq_two.1 h with ⟨a, b, rfl⟩
      simp [Literal.convert_zipWith hom.add]
  | subtraction s _ =>
      rcases List.length_eq_two.1 h with ⟨a, b, rfl⟩
      simp [Literal.convert_zipWith hom.sub]
  | multiplication =>
      rcases List.length_eq_two.1 h with ⟨a, b, rfl⟩
      simp [Literal.convert_zipWith hom.mul]
  | division =>
      rcases List.length_eq_two.1 h with ⟨a, b, rfl⟩
      simp [Literal.convert_zipWith hom.div]
  | scaling s _ =>
      rcases List.length_eq_two.1 h with ⟨a, b, rfl⟩
      simp [Literal.convert_scale hom, Literal.component_convert hom.zero]
  | innerProduct s _ =>
      rcases List.length_eq_two.1 h with ⟨a, b, rfl⟩
      simp [Literal.convert_scalar, Literal.convert_dot hom]
  | matrixProduct s _ | columnProduct m v _ =>
      rcases List.length_eq_two.1 h with ⟨a, b, rfl⟩
      simp [Literal.convert_product hom]
  | outerProduct m v _ =>
      rcases List.length_eq_two.1 h with ⟨a, b, rfl⟩
      simp [Literal.convert_outer hom]

end

end Operator

end Standard

end SymbolicLinalg
