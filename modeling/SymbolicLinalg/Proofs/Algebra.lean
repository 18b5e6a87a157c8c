import Mathlib.Data.Fin.Tuple.Basic
import Mathlib.LinearAlgebra.Matrix.Trace
import Mathlib.Tactic.Ring
import SymbolicLinalg.Proofs.Component

/-!
# Algebra — literals over a commutative ring

`Literal.toMatrix` is the matrix whose entries are the components of a literal in column-major
order; a vector is a matrix of one column.  The operations on literals are those on matrices, and
the inner product of two literals is the trace of `Aᵀ B`.

* `dot_product_left`, `dot_product_right`: the adjoints of the product, `G Bᵀ` and `Aᵀ G`;
* `dot_outer_left`, `dot_outer_right`: the adjoints of the outer product, `G v` and `Gᵀ u`.
-/

namespace SymbolicLinalg

/-- The numbers of rows and columns of a shape. -/
def Shape.HasDims (s : Shape) (m n : Nat) : Prop :=
  s.rows = m ∧ s.cols = n

instance (s : Shape) (m n : Nat) : Decidable (s.HasDims m n) :=
  inferInstanceAs (Decidable (_ ∧ _))

theorem Shape.ne_genericScalar {s : Shape} (h : s.isScalar = false) : s ≠ .genericScalar := by
  rintro rfl
  exact absurd h (by decide)

theorem Shape.isScalar_of_isMatrix {s : Shape} (h : s.isMatrix = true) : s.isScalar = false := by
  revert h
  cases s <;> decide

theorem Shape.hasDims_of_isMatrix {s : Shape} (h : s.isMatrix = true) :
    s.HasDims s.rows s.rows := by
  revert h
  cases s <;> decide

namespace Shape.HasDims

variable {s : Shape} {m n r c : Nat}

theorem rowOf (h : s.HasDims m n) (hr : r < m) : s.rowOf (r + m * c) = r := by
  rcases h with ⟨rfl, _⟩
  exact rowOf_index hr

theorem colOf (h : s.HasDims m n) (hr : r < m) : s.colOf (r + m * c) = c := by
  rcases h with ⟨rfl, _⟩
  exact colOf_index hr

end Shape.HasDims

namespace Literal

variable {K : Type} [CommRing K] [Arithmetic K] [RingArithmetic K]
  {a b g : Literal K} {s t u : Shape} {m n k : Nat}

/-! ## Matrices -/

omit [CommRing K] [RingArithmetic K] in
/-- The components as a matrix. -/
def toMatrix (m n : Nat) (a : Literal K) : Matrix (Fin m) (Fin n) K :=
  Matrix.of fun r c => a.component (r + m * c)

omit [CommRing K] [RingArithmetic K] in
theorem toMatrix_apply (a : Literal K) (r : Fin m) (c : Fin n) :
    a.toMatrix m n r c = a.component (r + m * c) := rfl

omit [CommRing K] [RingArithmetic K] in
/-- Literals of one shape are equal if their matrices are. -/
theorem HasShape.ext_toMatrix (ha : a.HasShape s) (hb : b.HasShape s) (dims : s.HasDims m n)
    (h : a.toMatrix m n = b.toMatrix m n) : a = b := by
  rcases dims with ⟨rfl, rfl⟩
  refine ha.ext hb ?_
  intro i hi
  have entry := congrFun (congrFun h ⟨s.rowOf i, s.rowOf_lt i⟩) ⟨s.colOf i, Shape.colOf_lt hi⟩
  simp only [toMatrix_apply] at entry
  have place : s.rowOf i + s.rows * s.colOf i = i := s.index_rowOf_colOf i
  rwa [place] at entry

omit [CommRing K] [RingArithmetic K] in
theorem toMatrix_ofFn (dims : s.HasDims m n) (f : Nat → K) (r : Fin m) (c : Fin n) :
    (ofFn s f).toMatrix m n r c = f (r + m * c) := by
  rcases dims with ⟨rfl, rfl⟩
  exact component_ofFn (Shape.index_lt_size r.isLt c.isLt)

theorem toMatrix_product (ha : a.HasShape s) (hb : b.HasShape t) (hs : s.HasDims m k)
    (ht : t.HasDims k n) (hu : u.HasDims m n) :
    (a.product b u).toMatrix m n = a.toMatrix m k * b.toMatrix k n := by
  ext r c
  rw [product, toMatrix_ofFn hu, Arithmetic.sum_eq, ha.shape, hs.rowOf r.isLt, hs.colOf r.isLt,
    hs.2, Matrix.mul_apply, ← List.sum_ofFn, List.ofFn_eq_map, ← List.map_coe_finRange_eq_range,
    List.map_map]
  congr 1
  refine List.map_congr_left ?_
  intro i _
  simp only [Function.comp_apply, RingArithmetic.mul_eq, ha.get_eq, hb.get_eq, Shape.index,
    toMatrix_apply, hs.1, ht.1]

omit [CommRing K] [RingArithmetic K] in
theorem toMatrix_transpose (ha : a.HasShape s) (dims : s.HasDims m m) :
    a.transpose.toMatrix m m = (a.toMatrix m m).transpose := by
  ext r c
  rw [transpose, ha.shape, toMatrix_ofFn dims, dims.rowOf r.isLt, dims.colOf r.isLt, ha.get_eq,
    Shape.index, dims.1]
  rfl

theorem toMatrix_outer (hu : u.HasDims m m) :
    (outer a b u).toMatrix m m = a.toMatrix m 1 * (b.toMatrix m 1).transpose := by
  ext r c
  rw [outer, toMatrix_ofFn hu, hu.rowOf r.isLt, hu.colOf r.isLt, Matrix.mul_apply]
  simp [toMatrix_apply]

theorem toMatrix_one (matrix : s.isMatrix = true) (dims : s.HasDims m m) :
    (one s : Literal K).toMatrix m m = 1 := by
  ext r c
  rw [one, toMatrix_ofFn dims, dims.rowOf r.isLt, dims.colOf r.isLt, matrix, Matrix.one_apply]
  by_cases same : r = c
  · simp [same]
  · have : (r : Nat) ≠ c := fun h => same (Fin.ext h)
    simp [same, this]

theorem toMatrix_zero : (zero s : Literal K).toMatrix m n = 0 := by
  ext r c
  simp [toMatrix_apply]

/-! ## Inner products -/

theorem dot_eq_sum (ha : a.HasShape s) (hb : b.HasShape s) :
    a.dot b = ∑ i : Fin s.size, a.component i * b.component i := by
  have terms : List.zipWith Arithmetic.mul a.components b.components =
      List.ofFn fun i : Fin s.size => a.component i * b.component i := by
    refine List.ext_getElem (by simp [ha.length, hb.length]) ?_
    intro i hi hi'
    have left : i < a.components.length := by
      simp only [List.length_zipWith] at hi
      omega
    have right : i < b.components.length := by
      simp only [List.length_zipWith] at hi
      omega
    simp [component_eq_getElem left, component_eq_getElem right]
  rw [dot, terms, Arithmetic.sum_eq, List.sum_ofFn]

/-- The inner product of matrices is the trace of `Aᵀ B`. -/
theorem dot_eq_trace (ha : a.HasShape s) (hb : b.HasShape s) (dims : s.HasDims m n) :
    a.dot b = ((a.toMatrix m n).transpose * b.toMatrix m n).trace := by
  rcases dims with ⟨rfl, rfl⟩
  have size : s.cols * s.rows = s.size := Nat.mul_comm _ _
  rw [dot_eq_sum ha hb]
  calc ∑ i : Fin s.size, a.component i * b.component i
      = ∑ i : Fin (s.cols * s.rows), a.component i * b.component i :=
        (Fin.sum_congr' (fun i : Fin s.size => a.component i * b.component i) size).symm
    _ = ∑ p : Fin s.cols × Fin s.rows,
          a.component (p.2 + s.rows * p.1) * b.component (p.2 + s.rows * p.1) :=
        (Equiv.sum_comp finProdFinEquiv
          fun i : Fin (s.cols * s.rows) => a.component i * b.component i).symm
    _ = _ := by
        rw [Fintype.sum_prod_type]
        rfl

theorem dot_comm (ha : a.HasShape s) (hb : b.HasShape s) : a.dot b = b.dot a := by
  rw [dot_eq_sum ha hb, dot_eq_sum hb ha]
  exact Finset.sum_congr rfl fun i _ => mul_comm _ _

theorem dot_zero (ha : a.HasShape s) : a.dot (zero s) = 0 := by
  rw [dot_eq_sum ha (hasShape_zero s)]
  simp

theorem zero_dot (ha : a.HasShape s) : (zero s).dot a = 0 := by
  rw [dot_comm (hasShape_zero s) ha, dot_zero ha]

theorem dot_scalar (x y : K) : (scalar x).dot (scalar y) = x * y := by
  simp [dot, scalar]

theorem dot_add (hg : g.HasShape s) (ha : a.HasShape s) (hb : b.HasShape s) :
    g.dot (zipWith Arithmetic.add a b) = g.dot a + g.dot b := by
  rw [dot_eq_sum hg (ha.zipWith hb _), dot_eq_sum hg ha, dot_eq_sum hg hb,
    ← Finset.sum_add_distrib]
  refine Finset.sum_congr rfl ?_
  intro i _
  rw [ha.component_zipWith hb i.isLt, RingArithmetic.add_eq, mul_add]

theorem add_dot (hg : g.HasShape s) (ha : a.HasShape s) (hb : b.HasShape s) :
    (zipWith Arithmetic.add a b).dot g = a.dot g + b.dot g := by
  rw [dot_comm (ha.zipWith hb _) hg, dot_add hg ha hb, dot_comm hg ha, dot_comm hg hb]

theorem dot_sub (hg : g.HasShape s) (ha : a.HasShape s) (hb : b.HasShape s) :
    g.dot (zipWith Arithmetic.sub a b) = g.dot a - g.dot b := by
  rw [dot_eq_sum hg (ha.zipWith hb _), dot_eq_sum hg ha, dot_eq_sum hg hb,
    ← Finset.sum_sub_distrib]
  refine Finset.sum_congr rfl ?_
  intro i _
  rw [ha.component_zipWith hb i.isLt, RingArithmetic.sub_eq, mul_sub]

theorem dot_scale (hg : g.HasShape s) (ha : a.HasShape s) (x : K) :
    g.dot (a.scale x) = x * g.dot a := by
  rw [dot_eq_sum hg (ha.scale x), dot_eq_sum hg ha, Finset.mul_sum]
  refine Finset.sum_congr rfl ?_
  intro i _
  rw [ha.component_scale i.isLt, RingArithmetic.mul_eq, mul_left_comm]

theorem scale_dot (hg : g.HasShape s) (ha : a.HasShape s) (x : K) :
    (a.scale x).dot g = x * a.dot g := by
  rw [dot_comm (ha.scale x) hg, dot_scale hg ha, dot_comm hg ha]

theorem dot_neg (hg : g.HasShape s) (ha : a.HasShape s) :
    g.dot (a.map Arithmetic.neg) = -g.dot a := by
  rw [dot_eq_sum hg (ha.map _), dot_eq_sum hg ha, ← Finset.sum_neg_distrib]
  refine Finset.sum_congr rfl ?_
  intro i _
  rw [ha.component_map i.isLt, RingArithmetic.neg_eq, mul_neg]

theorem neg_dot (ha : a.HasShape s) (hg : g.HasShape s) :
    (a.map Arithmetic.neg).dot g = -a.dot g := by
  rw [dot_comm (ha.map _) hg, dot_neg hg ha, dot_comm hg ha]

theorem dot_of_scalar (ha : a.HasShape .scalar) (hb : b.HasShape .scalar) :
    a.dot b = a.component 0 * b.component 0 := by
  rw [ha.eq_scalar, hb.eq_scalar, dot_scalar]
  rfl

/-- The inner product with one at a single place is the component there. -/
theorem oneHot_dot (ha : a.HasShape s) {i : Nat} (hi : i < s.size) :
    (oneHot s i).dot a = a.component i := by
  rw [dot_eq_sum (hasShape_oneHot s i) ha, Finset.sum_eq_single ⟨i, hi⟩]
  · rw [oneHot, component_ofFn hi]
    simp
  · intro j _ ne
    have : (j : Nat) ≠ i := fun h => ne (Fin.ext h)
    rw [oneHot, component_ofFn j.isLt]
    simp [this]
  · exact fun h => absurd (Finset.mem_univ _) h

/-! ## Adjoints -/

theorem dot_transpose (hg : g.HasShape s) (ha : a.HasShape s) (dims : s.HasDims m m) :
    g.dot a.transpose = g.transpose.dot a := by
  rw [dot_eq_trace hg ha.transpose dims, dot_eq_trace hg.transpose ha dims,
    toMatrix_transpose ha dims, toMatrix_transpose hg dims, ← Matrix.transpose_mul,
    Matrix.trace_transpose, Matrix.trace_mul_comm, Matrix.transpose_transpose]

theorem dot_product_left (hg : g.HasShape s) (ha : a.HasShape s) (hb : b.HasShape s)
    (dims : s.HasDims m m) :
    g.dot (a.product b s) = (g.product b.transpose s).dot a := by
  rw [dot_eq_trace hg (hasShape_product a b s) dims,
    dot_eq_trace (hasShape_product g _ s) ha dims, toMatrix_product ha hb dims dims dims,
    toMatrix_product hg hb.transpose dims dims dims, toMatrix_transpose hb dims,
    Matrix.transpose_mul, Matrix.transpose_transpose, ← Matrix.mul_assoc, Matrix.trace_mul_cycle]

/-- The right factor may be a matrix or a column. -/
theorem dot_product_right (hg : g.HasShape t) (ha : a.HasShape s) (hb : b.HasShape t)
    (dims : s.HasDims m m) (ht : t.HasDims m n) :
    g.dot (a.product b t) = (a.transpose.product g t).dot b := by
  rw [dot_eq_trace hg (hasShape_product a b t) ht,
    dot_eq_trace (hasShape_product _ g t) hb ht, toMatrix_product ha hb dims ht ht,
    toMatrix_product ha.transpose hg dims ht ht, toMatrix_transpose ha dims,
    Matrix.transpose_mul, Matrix.transpose_transpose, Matrix.mul_assoc]

theorem dot_product_outer (hg : g.HasShape t) (ha : a.HasShape s) (hb : b.HasShape t)
    (dims : s.HasDims m m) (ht : t.HasDims m 1) :
    g.dot (a.product b t) = (outer g b s).dot a := by
  rw [dot_eq_trace hg (hasShape_product a b t) ht,
    dot_eq_trace (hasShape_outer g b s) ha dims, toMatrix_product ha hb dims ht ht,
    toMatrix_outer dims, Matrix.transpose_mul, Matrix.transpose_transpose, ← Matrix.mul_assoc,
    Matrix.trace_mul_cycle]

theorem dot_outer_left (hg : g.HasShape s) (ha : a.HasShape t) (hb : b.HasShape t)
    (dims : s.HasDims m m) (ht : t.HasDims m 1) :
    g.dot (outer a b s) = (g.product b t).dot a := by
  rw [dot_comm (hasShape_product g b t) ha, dot_product_outer ha hg hb dims ht,
    dot_comm (hasShape_outer a b s) hg]

theorem dot_outer_right (hg : g.HasShape s) (ha : a.HasShape t) (hb : b.HasShape t)
    (dims : s.HasDims m m) (ht : t.HasDims m 1) :
    g.dot (outer a b s) = (g.transpose.product a t).dot b := by
  rw [dot_outer_left hg ha hb dims ht, dot_comm (hasShape_product g b t) ha,
    dot_product_right ha hg hb dims ht]

/-! ## Identities -/

theorem add_zero (ha : a.HasShape s) : zipWith Arithmetic.add a (zero s) = a := by
  refine (ha.zipWith (hasShape_zero s) _).ext ha ?_
  intro i hi
  rw [ha.component_zipWith (hasShape_zero s) hi]
  simp

theorem zero_add (ha : a.HasShape s) : zipWith Arithmetic.add (zero s) a = a := by
  refine ((hasShape_zero s).zipWith ha _).ext ha ?_
  intro i hi
  rw [(hasShape_zero s).component_zipWith ha hi]
  simp

theorem add_comm (ha : a.HasShape s) (hb : b.HasShape s) :
    zipWith Arithmetic.add a b = zipWith Arithmetic.add b a := by
  refine (ha.zipWith hb _).ext (hb.zipWith ha _) ?_
  intro i hi
  rw [ha.component_zipWith hb hi, hb.component_zipWith ha hi]
  simp only [RingArithmetic.add_eq]
  ring

theorem sub_zero (ha : a.HasShape s) : zipWith Arithmetic.sub a (zero s) = a := by
  refine (ha.zipWith (hasShape_zero s) _).ext ha ?_
  intro i hi
  rw [ha.component_zipWith (hasShape_zero s) hi]
  simp

theorem zero_sub (ha : a.HasShape s) :
    zipWith Arithmetic.sub (zero s) a = a.map Arithmetic.neg := by
  refine ((hasShape_zero s).zipWith ha _).ext (ha.map _) ?_
  intro i hi
  rw [(hasShape_zero s).component_zipWith ha hi, ha.component_map hi]
  simp

theorem scale_neg_one (ha : a.HasShape s) :
    a.scale (Arithmetic.neg Arithmetic.one) = a.map Arithmetic.neg := by
  refine (ha.scale _).ext (ha.map _) ?_
  intro i hi
  rw [ha.component_scale hi, ha.component_map hi]
  simp

theorem neg_neg (a : Literal K) : (a.map Arithmetic.neg).map Arithmetic.neg = a := by
  cases a
  simp [map, Function.comp_def]

theorem zero_mul (ha : a.HasShape s) : zipWith Arithmetic.mul (zero s) a = zero s := by
  refine ((hasShape_zero s).zipWith ha _).ext (hasShape_zero s) ?_
  intro i hi
  rw [(hasShape_zero s).component_zipWith ha hi]
  simp

theorem mul_zero (ha : a.HasShape s) : zipWith Arithmetic.mul a (zero s) = zero s := by
  refine (ha.zipWith (hasShape_zero s) _).ext (hasShape_zero s) ?_
  intro i hi
  rw [ha.component_zipWith (hasShape_zero s) hi]
  simp

/-- The identity of a shape that is not a matrix has ones everywhere. -/
theorem component_one (matrix : s.isMatrix = false) {i : Nat} (hi : i < s.size) :
    (one s : Literal K).component i = 1 := by
  rw [one, component_ofFn hi]
  simp [matrix]

theorem one_mul (matrix : s.isMatrix = false) (ha : a.HasShape s) :
    zipWith Arithmetic.mul (one s) a = a := by
  refine ((hasShape_one s).zipWith ha _).ext ha ?_
  intro i hi
  rw [(hasShape_one s).component_zipWith ha hi, component_one matrix hi]
  simp

theorem mul_one (matrix : s.isMatrix = false) (ha : a.HasShape s) :
    zipWith Arithmetic.mul a (one s) = a := by
  refine (ha.zipWith (hasShape_one s) _).ext ha ?_
  intro i hi
  rw [ha.component_zipWith (hasShape_one s) hi, component_one matrix hi]
  simp

theorem zero_scale (ha : a.HasShape s) : a.scale Arithmetic.zero = zero s := by
  refine (ha.scale _).ext (hasShape_zero s) ?_
  intro i hi
  rw [ha.component_scale hi]
  simp

theorem scale_zero (x : K) : (zero s).scale x = zero s := by
  refine ((hasShape_zero s).scale x).ext (hasShape_zero s) ?_
  intro i hi
  rw [(hasShape_zero s).component_scale hi]
  simp

theorem one_scale (ha : a.HasShape s) : a.scale Arithmetic.one = a := by
  refine (ha.scale _).ext ha ?_
  intro i hi
  rw [ha.component_scale hi]
  simp

omit [CommRing K] [RingArithmetic K] in
theorem transpose_transpose (ha : a.HasShape s) (dims : s.HasDims m m) :
    a.transpose.transpose = a := by
  refine ha.transpose.transpose.ext_toMatrix ha dims ?_
  rw [toMatrix_transpose ha.transpose dims, toMatrix_transpose ha dims,
    Matrix.transpose_transpose]

theorem zero_product (hb : b.HasShape t) (dims : s.HasDims m m) (ht : t.HasDims m n) :
    (zero s).product b t = zero t := by
  refine (hasShape_product _ b t).ext_toMatrix (hasShape_zero t) ht ?_
  rw [toMatrix_product (hasShape_zero s) hb dims ht ht, toMatrix_zero, Matrix.zero_mul,
    toMatrix_zero]

theorem product_zero (ha : a.HasShape s) (dims : s.HasDims m m) (ht : t.HasDims m n) :
    a.product (zero t) t = zero t := by
  refine (hasShape_product a _ t).ext_toMatrix (hasShape_zero t) ht ?_
  rw [toMatrix_product ha (hasShape_zero t) dims ht ht, toMatrix_zero, Matrix.mul_zero]

theorem one_product (hb : b.HasShape t) (matrix : s.isMatrix = true) (dims : s.HasDims m m)
    (ht : t.HasDims m n) : (one s).product b t = b := by
  refine (hasShape_product _ b t).ext_toMatrix hb ht ?_
  rw [toMatrix_product (hasShape_one s) hb dims ht ht, toMatrix_one matrix dims, Matrix.one_mul]

theorem product_one (ha : a.HasShape s) (matrix : s.isMatrix = true) (dims : s.HasDims m m) :
    a.product (one s) s = a := by
  refine (hasShape_product a _ s).ext_toMatrix ha dims ?_
  rw [toMatrix_product ha (hasShape_one s) dims dims dims, toMatrix_one matrix dims,
    Matrix.mul_one]

theorem outer_zero (b : Literal K) : outer b (zero t) s = zero s := by
  refine (hasShape_outer b _ s).ext (hasShape_zero s) ?_
  intro i hi
  rw [outer, component_ofFn hi]
  simp

theorem zero_outer (b : Literal K) : outer (zero t) b s = zero s := by
  refine (hasShape_outer _ b s).ext (hasShape_zero s) ?_
  intro i hi
  rw [outer, component_ofFn hi]
  simp

/-! ## Quotients -/

section

variable {F : Type} [Field F] [Arithmetic F] [FieldArithmetic F] {x : Literal F}

theorem zero_div (hx : x.HasShape s) : zipWith Arithmetic.div (zero s) x = zero s := by
  refine ((hasShape_zero s).zipWith hx _).ext (hasShape_zero s) ?_
  intro i hi
  rw [(hasShape_zero s).component_zipWith hx hi]
  simp

theorem div_one (matrix : s.isMatrix = false) (hx : x.HasShape s) :
    zipWith Arithmetic.div x (one s) = x := by
  refine (hx.zipWith (hasShape_one s) _).ext hx ?_
  intro i hi
  rw [hx.component_zipWith (hasShape_one s) hi, component_one matrix hi]
  simp

end

end Literal

end SymbolicLinalg
