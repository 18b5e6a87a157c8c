import SymbolicLinalg.Proofs.Transform

/-!
# Tangent — the rates of change of the standard operators

A literal of dual numbers has a real part and a tangent.  The real part of the value of an operator
is its value at the real parts, since forgetting the rate of change is a map of arithmetics; the
tangent follows the rules of differentiation, which are stated here for every operation on literals.
-/

namespace SymbolicLinalg

namespace Literal

variable {K : Type} [Arithmetic K] {v w : Literal (Dual K)} {s : Shape} {i : Nat}

/-! ## Parts -/

omit [Arithmetic K] in
theorem HasShape.realPart (h : v.HasShape s) : v.realPart.HasShape s :=
  h.convert Dual.real

omit [Arithmetic K] in
theorem HasShape.tangent (h : v.HasShape s) : v.tangent.HasShape s :=
  h.convert Dual.infinitesimal

theorem component_realPart (v : Literal (Dual K)) (i : Nat) :
    v.realPart.component i = (v.component i).real :=
  component_convert (f := Dual.real) rfl v i

theorem component_tangent (v : Literal (Dual K)) (i : Nat) :
    v.tangent.component i = (v.component i).infinitesimal :=
  component_convert (f := Dual.infinitesimal) rfl v i

theorem get_realPart (v : Literal (Dual K)) (r c : Nat) : v.realPart.get r c = (v.get r c).real :=
  component_realPart v _

theorem get_tangent (v : Literal (Dual K)) (r c : Nat) :
    v.tangent.get r c = (v.get r c).infinitesimal :=
  component_tangent v _

omit [Arithmetic K] in
theorem hasShape_withTangent {a t : Literal K} (ha : a.HasShape s) (ht : t.HasShape s) :
    (a.withTangent t).HasShape s :=
  .of_length ha.shape (by simp [withTangent, ha.length, ht.length])

theorem component_withTangent {a t : Literal K} (ha : a.HasShape s) (ht : t.HasShape s)
    (hi : i < s.size) : (a.withTangent t).component i = ⟨a.component i, t.component i⟩ := by
  have left : i < a.components.length := ha.length ▸ hi
  have right : i < t.components.length := ht.length ▸ hi
  have both : i < (a.withTangent t).components.length :=
    (hasShape_withTangent ha ht).length ▸ hi
  rw [component_eq_getElem left, component_eq_getElem right, component_eq_getElem both]
  simp [withTangent]

theorem realPart_withTangent {a t : Literal K} (ha : a.HasShape s) (ht : t.HasShape s) :
    (a.withTangent t).realPart = a := by
  refine (hasShape_withTangent ha ht).realPart.ext ha ?_
  intro i hi
  rw [component_realPart, component_withTangent ha ht hi]

theorem tangent_withTangent {a t : Literal K} (ha : a.HasShape s) (ht : t.HasShape s) :
    (a.withTangent t).tangent = t := by
  refine (hasShape_withTangent ha ht).tangent.ext ht ?_
  intro i hi
  rw [component_tangent, component_withTangent ha ht hi]

theorem tangent_steady {a : Literal K} (ha : a.HasShape s) : a.steady.tangent = zero s := by
  refine (ha.convert Dual.constant).tangent.ext (hasShape_zero s) ?_
  intro i hi
  have constant : a.steady.component i = Dual.constant (a.component i) :=
    component_convert (f := Dual.constant) rfl a i
  rw [component_tangent, component_zero]
  exact congrArg Dual.infinitesimal constant

/-! ## Componentwise operations -/

theorem tangent_add (v w : Literal (Dual K)) :
    (zipWith Arithmetic.add v w).tangent = zipWith Arithmetic.add v.tangent w.tangent :=
  convert_zipWith (fun _ _ => rfl) v w

theorem tangent_sub (v w : Literal (Dual K)) :
    (zipWith Arithmetic.sub v w).tangent = zipWith Arithmetic.sub v.tangent w.tangent :=
  convert_zipWith (fun _ _ => rfl) v w

theorem tangent_neg (v : Literal (Dual K)) :
    (v.map Arithmetic.neg).tangent = v.tangent.map Arithmetic.neg :=
  convert_map (f := Dual.infinitesimal) (g := Arithmetic.neg) (fun _ => rfl) v

theorem tangent_mul (hv : v.HasShape s) (hw : w.HasShape s) :
    (zipWith Arithmetic.mul v w).tangent =
      zipWith Arithmetic.add (zipWith Arithmetic.mul v.tangent w.realPart)
        (zipWith Arithmetic.mul v.realPart w.tangent) := by
  have left := hv.tangent.zipWith hw.realPart Arithmetic.mul
  have right := hv.realPart.zipWith hw.tangent Arithmetic.mul
  refine (hv.zipWith hw _).tangent.ext (left.zipWith right _) ?_
  intro i hi
  rw [component_tangent, hv.component_zipWith hw hi, left.component_zipWith right hi,
    hv.tangent.component_zipWith hw.realPart hi, hv.realPart.component_zipWith hw.tangent hi]
  simp only [component_tangent, component_realPart]
  rfl

theorem tangent_div (hv : v.HasShape s) (hw : w.HasShape s) :
    (zipWith Arithmetic.div v w).tangent =
      zipWith Arithmetic.div
        (zipWith Arithmetic.sub (zipWith Arithmetic.mul v.tangent w.realPart)
          (zipWith Arithmetic.mul v.realPart w.tangent))
        (zipWith Arithmetic.mul w.realPart w.realPart) := by
  have left := hv.tangent.zipWith hw.realPart Arithmetic.mul
  have right := hv.realPart.zipWith hw.tangent Arithmetic.mul
  have square := hw.realPart.zipWith hw.realPart Arithmetic.mul
  refine (hv.zipWith hw _).tangent.ext ((left.zipWith right _).zipWith square _) ?_
  intro i hi
  rw [component_tangent, hv.component_zipWith hw hi,
    (left.zipWith right _).component_zipWith square hi, left.component_zipWith right hi,
    hv.tangent.component_zipWith hw.realPart hi, hv.realPart.component_zipWith hw.tangent hi,
    hw.realPart.component_zipWith hw.realPart hi]
  simp only [component_tangent, component_realPart]
  rfl

theorem tangent_cos (hv : v.HasShape s) :
    (v.map Arithmetic.cos).tangent =
      zipWith Arithmetic.mul ((v.realPart.map Arithmetic.sin).map Arithmetic.neg) v.tangent := by
  have slope := (hv.realPart.map Arithmetic.sin).map Arithmetic.neg
  refine (hv.map _).tangent.ext (slope.zipWith hv.tangent _) ?_
  intro i hi
  rw [component_tangent, hv.component_map hi, slope.component_zipWith hv.tangent hi,
    (hv.realPart.map _).component_map hi, hv.realPart.component_map hi]
  simp only [component_tangent, component_realPart]
  rfl

theorem tangent_sin (hv : v.HasShape s) :
    (v.map Arithmetic.sin).tangent =
      zipWith Arithmetic.mul (v.realPart.map Arithmetic.cos) v.tangent := by
  have slope := hv.realPart.map Arithmetic.cos
  refine (hv.map _).tangent.ext (slope.zipWith hv.tangent _) ?_
  intro i hi
  rw [component_tangent, hv.component_map hi, slope.component_zipWith hv.tangent hi,
    hv.realPart.component_map hi]
  simp only [component_tangent, component_realPart]
  rfl

theorem tangent_scale (hv : v.HasShape s) (x : Dual K) :
    (v.scale x).tangent =
      zipWith Arithmetic.add (v.realPart.scale x.infinitesimal) (v.tangent.scale x.real) := by
  have left := hv.realPart.scale x.infinitesimal
  have right := hv.tangent.scale x.real
  refine (hv.scale x).tangent.ext (left.zipWith right _) ?_
  intro i hi
  rw [component_tangent, hv.component_scale hi, left.component_zipWith right hi,
    hv.realPart.component_scale hi, hv.tangent.component_scale hi]
  simp only [component_tangent, component_realPart]
  rfl

/-! ## Rearrangements -/

omit [Arithmetic K] in
theorem tangent_scalar (x : Dual K) : (scalar x).tangent = scalar x.infinitesimal := rfl

omit [Arithmetic K] in
theorem realPart_scalar (x : Dual K) : (scalar x).realPart = scalar x.real := rfl

theorem tangent_transpose (v : Literal (Dual K)) : v.transpose.tangent = v.tangent.transpose := by
  change v.transpose.convert Dual.infinitesimal = _
  rw [transpose, convert_ofFn, transpose]
  simp only [get_tangent]
  rfl

theorem tangent_outer (v w : Literal (Dual K)) (s : Shape) :
    (outer v w s).tangent =
      zipWith Arithmetic.add (outer v.tangent w.realPart s) (outer v.realPart w.tangent s) := by
  have left := hasShape_outer v.tangent w.realPart s
  have right := hasShape_outer v.realPart w.tangent s
  refine (hasShape_outer v w s).tangent.ext (left.zipWith right _) ?_
  intro i hi
  rw [component_tangent, left.component_zipWith right hi, outer, outer, outer, component_ofFn hi,
    component_ofFn hi, component_ofFn hi]
  simp only [component_tangent, component_realPart]
  rfl

/-! ## Sums of products -/

section

variable [CommRing K] [RingArithmetic K]

theorem tangent_dot (v w : Literal (Dual K)) :
    (v.dot w).infinitesimal = v.tangent.dot w.realPart + v.realPart.dot w.tangent := by
  -- by the product rule for each pair of components, along the shorter list
  have terms (xs ys : List (Dual K)) :
      ((List.zipWith Arithmetic.mul xs ys).map Dual.infinitesimal).sum =
        (List.zipWith Arithmetic.mul (xs.map Dual.infinitesimal) (ys.map Dual.real)).sum +
          (List.zipWith Arithmetic.mul (xs.map Dual.real) (ys.map Dual.infinitesimal)).sum := by
    induction xs generalizing ys with
    | nil => simp
    | cons x xs ih =>
        cases ys with
        | nil => simp
        | cons y ys =>
            have first : (Arithmetic.mul x y).infinitesimal =
                x.infinitesimal * y.real + x.real * y.infinitesimal := by
              change Arithmetic.add (Arithmetic.mul x.infinitesimal y.real)
                (Arithmetic.mul x.real y.infinitesimal) = _
              simp only [RingArithmetic.add_eq, RingArithmetic.mul_eq]
            simp only [List.zipWith_cons_cons, List.map_cons, List.sum_cons, ih, first,
              RingArithmetic.mul_eq]
            ring
  rw [dot, Dual.infinitesimal_sum, Arithmetic.sum_eq, dot, dot, Arithmetic.sum_eq,
    Arithmetic.sum_eq]
  exact terms v.components w.components

theorem tangent_product (v w : Literal (Dual K)) (s : Shape) :
    (v.product w s).tangent =
      zipWith Arithmetic.add (v.tangent.product w.realPart s) (v.realPart.product w.tangent s) := by
  have left := hasShape_product v.tangent w.realPart s
  have right := hasShape_product v.realPart w.tangent s
  refine (hasShape_product v w s).tangent.ext (left.zipWith right _) ?_
  intro i hi
  rw [component_tangent, left.component_zipWith right hi, product, product, product,
    component_ofFn hi, component_ofFn hi, component_ofFn hi, Dual.infinitesimal_sum,
    RingArithmetic.add_eq, Arithmetic.sum_eq, Arithmetic.sum_eq, Arithmetic.sum_eq,
    List.map_map]
  -- both sides are sums over the columns of the left factor
  change _ = (List.map _ (List.range v.shape.cols)).sum + (List.map _ (List.range v.shape.cols)).sum
  rw [← List.sum_map_add]
  congr 1
  refine List.map_congr_left ?_
  intro k _
  simp only [Function.comp_apply, get_tangent, get_realPart]
  exact RingArithmetic.add_eq _ _

end

end Literal

namespace Standard

variable {K : Type} [Arithmetic K] {s : Shape}

/-! ## Operators over many scalars -/

theorem scalarAt_tangent (values : List (Literal (Dual K))) (place : Nat) :
    (scalarAt values place).infinitesimal = scalarAt (values.map Literal.tangent) place := by
  have zero : (Literal.zero .scalar : Literal (Dual K)).tangent = .zero .scalar := rfl
  rw [scalarAt, scalarAt, ← Literal.component_tangent, ← zero]
  simp [List.getD_eq_getElem?_getD, Option.getD_map]

theorem tangent_constructor (s : Shape) (values : List (Literal (Dual K))) :
    (Literal.ofFn s (scalarAt values)).tangent =
      .ofFn s (scalarAt (values.map Literal.tangent)) := by
  change (Literal.ofFn s (scalarAt values)).convert Dual.infinitesimal = _
  rw [Literal.convert_ofFn]
  simp only [scalarAt_tangent]

/-- The scalars change, and the rest of the matrix does not. -/
theorem tangent_filled (positions : List Nat) (values : List (Literal (Dual K))) :
    (Operator.filled positions values).tangent =
      .ofFn .mat44
        (Operator.filledComponent positions (values.map Literal.tangent) fun _ =>
          Arithmetic.zero) := by
  -- the components of the identity do not move
  have rest (i : Nat) : ((Literal.one .mat44).component i : Dual K).infinitesimal =
      Arithmetic.zero := by
    rw [← Literal.component_tangent]
    exact Literal.component_zero
  change (Operator.filled positions values).convert Dual.infinitesimal = _
  rw [Operator.filled, Literal.convert_ofFn]
  congr 1
  funext i
  rw [Operator.filledComponent, Operator.filledComponent]
  cases operandPlace? positions i with
  | some k => exact scalarAt_tangent values k
  | none => exact rest i

/-! ## Rotations about a coordinate axis -/

section

variable [Field K] [FieldArithmetic K]

namespace Cell

/-- A cell as a combination of one, the cosine and the sine. -/
def weights : Cell → ℤ × ℤ × ℤ
  | .zero => (0, 0, 0)
  | .one => (1, 0, 0)
  | .cos => (0, 1, 0)
  | .sin => (0, 0, 1)
  | .negSin => (0, 0, -1)

/-- The rate of change of a cell: the cosine falls with the sine, and the sine grows with the
cosine. -/
def slopeWeights (cell : Cell) : ℤ × ℤ × ℤ :=
  (0, cell.weights.2.2, -cell.weights.2.1)

/-- The component of the generator as an integer. -/
def sign : Cell → ℤ
  | .sin => 1
  | .negSin => -1
  | _ => 0

def combination (c s : K) : ℤ × ℤ × ℤ →+ K where
  toFun w := w.1 + w.2.1 * c + w.2.2 * s
  map_zero' := by simp
  map_add' v w := by
    simp only [Prod.fst_add, Prod.snd_add, Int.cast_add]
    ring

theorem value_eq (cell : Cell) (c s : K) : cell.value c s = combination c s cell.weights := by
  cases cell <;> simp [value, combination, weights]

theorem generator_eq (cell : Cell) : (cell.generator : K) = cell.sign := by
  cases cell <;> simp [generator, sign]

theorem infinitesimal_value (cell : Cell) (x : Dual K) :
    (cell.value (Arithmetic.cos x) (Arithmetic.sin x)).infinitesimal =
      x.infinitesimal *
        combination (Arithmetic.cos x.real) (Arithmetic.sin x.real) cell.slopeWeights := by
  cases cell with
  | zero | one =>
      change (Arithmetic.zero : K) = _
      simp [combination, slopeWeights, weights]
  | cos =>
      change Arithmetic.mul (Arithmetic.neg (Arithmetic.sin x.real)) x.infinitesimal = _
      simp [combination, slopeWeights, weights, mul_comm]
  | sin =>
      change Arithmetic.mul (Arithmetic.cos x.real) x.infinitesimal = _
      simp [combination, slopeWeights, weights, mul_comm]
  | negSin =>
      change Arithmetic.neg (Arithmetic.mul (Arithmetic.cos x.real) x.infinitesimal) = _
      simp [combination, slopeWeights, weights, mul_comm]

end Cell

/-- The tables of the rotations, row by column of the generator. -/
theorem AxisRotation.weights_product_generator : ∀ r ∈ axisRotations, ∀ i < r.shape.size,
    ((List.range r.shape.cols).map fun k =>
      (r.cell (r.shape.index k (r.shape.colOf i))).sign •
        (r.cell (r.shape.index (r.shape.rowOf i) k)).weights).sum = (r.cell i).slopeWeights := by
  decide +kernel

/-- The generator turns a rotation into its rate of change: `R'(a) = R(a) G`. -/
theorem AxisRotation.component_product_generator {r : AxisRotation} (h : r ∈ axisRotations)
    (angle : K) {i : Nat} (hi : i < r.shape.size) :
    ((r.value angle).product r.generator r.shape).component i =
      Cell.combination (Arithmetic.cos angle) (Arithmetic.sin angle) (r.cell i).slopeWeights := by
  have dims := Shape.hasDims_of_isMatrix (AxisRotation.cells_at_rest r h).1
  rw [← AxisRotation.weights_product_generator r h i hi, map_list_sum, List.map_map,
    Literal.product, Literal.component_ofFn hi, Arithmetic.sum_eq]
  congr 1
  -- the sum over the table of weights is a sum over the cells themselves
  refine List.map_congr_left ?_
  intro k hk
  have lt : k < r.shape.cols := List.mem_range.1 hk
  have row : r.shape.index (r.shape.rowOf i) k < r.shape.size :=
    Shape.index_lt_size (r.shape.rowOf_lt i) lt
  have col : r.shape.index k (r.shape.colOf i) < r.shape.size :=
    Shape.index_lt_size (dims.2 ▸ lt) (Shape.colOf_lt hi)
  have left : (r.value angle).get (r.shape.rowOf i) k =
      (r.cell (r.shape.index (r.shape.rowOf i) k)).value (Arithmetic.cos angle)
        (Arithmetic.sin angle) :=
    Literal.component_ofFn row
  have right : (r.generator : Literal K).get k (r.shape.colOf i) =
      (r.cell (r.shape.index k (r.shape.colOf i))).generator :=
    Literal.component_ofFn col
  rw [Function.comp_apply, map_zsmul, zsmul_eq_mul]
  change Arithmetic.mul ((r.value angle).get (r.shape.rowOf i) k)
    ((r.generator : Literal K).get k (r.shape.colOf i)) = _
  rw [left, right, Cell.value_eq, Cell.generator_eq, RingArithmetic.mul_eq, mul_comm]

/-- The tangent of a rotation is a multiple of the rotation times its generator. -/
theorem AxisRotation.tangent_value {r : AxisRotation} (h : r ∈ axisRotations) (angle : Dual K) :
    (r.value angle).tangent =
      ((r.value angle.real).product r.generator r.shape).scale angle.infinitesimal := by
  have shape : (r.value angle).HasShape r.shape := Literal.hasShape_ofFn _ _
  have slopes := Literal.hasShape_product (r.value angle.real) r.generator r.shape
  refine shape.tangent.ext (slopes.scale _) ?_
  intro i hi
  rw [slopes.component_scale hi, AxisRotation.component_product_generator h _ hi,
    Literal.component_tangent, AxisRotation.value, Literal.component_ofFn hi,
    Cell.infinitesimal_value, RingArithmetic.mul_eq]

end

end Standard

end SymbolicLinalg
