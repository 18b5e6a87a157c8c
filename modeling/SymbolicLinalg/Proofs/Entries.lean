import SymbolicLinalg.Proofs.Rational
import SymbolicLinalg.Proofs.Transform

/-!
# Entries — products, transposes and outer products entry by entry

A literal keeps its entries column after column: `a.get r c` is the component at `r + rows * c`.
Within the bounds of the shape it is the entry of `a.toMatrix`, so what is known of matrices is
known of literals by their entries.

* `get_product`, `get_transpose`, `get_outer`: the entries of results;
* `MatrixAlgebra`: the laws of a matrix shape and its column, with the adjoints of the products;
* `matrixAlgebra_of_isColumn`: they hold over every commutative ring.
-/

namespace SymbolicLinalg

namespace Literal

variable {K : Type} {a b g : Literal K} {s t u : Shape} {m n k r c : Nat}

/-! ## Entries -/

/-- The entries are kept column after column. -/
theorem HasShape.getElem?_eq_get [Arithmetic K] (ha : a.HasShape s) (hr : r < s.rows)
    (hc : c < s.cols) : a.components[r + s.rows * c]? = some (a.get r c) := by
  have bound : s.index r c < a.components.length := ha.length ▸ Shape.index_lt_size hr hc
  rw [ha.get_eq, component_eq_getElem bound]
  exact List.getElem?_eq_getElem bound

theorem HasShape.get_eq_toMatrix [Arithmetic K] (ha : a.HasShape s) (dims : s.HasDims m n)
    (hr : r < m) (hc : c < n) : a.get r c = a.toMatrix m n ⟨r, hr⟩ ⟨c, hc⟩ := by
  rw [ha.get_eq, toMatrix_apply, Shape.index, dims.1]

theorem get_transpose [Arithmetic K] (ha : a.HasShape s) (dims : s.HasDims m m) (hr : r < m)
    (hc : c < m) : a.transpose.get r c = a.get c r := by
  rw [ha.transpose.get_eq_toMatrix dims hr hc, toMatrix_transpose ha dims, Matrix.transpose_apply,
    ha.get_eq_toMatrix dims hc hr]

section

variable [CommRing K] [Arithmetic K] [RingArithmetic K]

theorem get_product (ha : a.HasShape s) (hb : b.HasShape t) (hs : s.HasDims m k)
    (ht : t.HasDims k n) (hu : u.HasDims m n) (hr : r < m) (hc : c < n) :
    (a.product b u).get r c = ∑ i ∈ Finset.range k, a.get r i * b.get i c := by
  rw [(hasShape_product a b u).get_eq_toMatrix hu hr hc, toMatrix_product ha hb hs ht hu,
    Matrix.mul_apply, ← Fin.sum_univ_eq_sum_range fun i => a.get r i * b.get i c]
  refine Finset.sum_congr rfl ?_
  intro i _
  rw [ha.get_eq_toMatrix hs hr i.isLt, hb.get_eq_toMatrix ht i.isLt hc]

theorem get_outer (a b : Literal K) (dims : s.HasDims m m) (hr : r < m) (hc : c < m) :
    (outer a b s).get r c = a.component r * b.component c := by
  rw [(hasShape_outer a b s).get_eq_toMatrix dims hr hc, toMatrix_outer dims, Matrix.mul_apply]
  -- a column times a row has a single summand
  simp [toMatrix_apply]

end

/-! ## The laws -/

/-- The literals of a matrix shape and of its column are matrices and columns: by their layout, by
the entries of results, by the identity, and by the adjoints of the three products with regard to
the inner product.  The right factor of a product is a matrix or a column. -/
structure MatrixAlgebra (K : Type) [CommRing K] [Arithmetic K] (matrix column : Shape) : Prop where
  layout {a : Literal K} {t : Shape} : t = matrix ∨ t = column → a.HasShape t →
    ∀ r < t.rows, ∀ c < t.cols, a.components[r + t.rows * c]? = some (a.get r c)
  get_product {a b : Literal K} {t : Shape} : t = matrix ∨ t = column →
    a.HasShape matrix → b.HasShape t → ∀ r < t.rows, ∀ c < t.cols,
      (a.product b t).get r c = ∑ k ∈ Finset.range matrix.cols, a.get r k * b.get k c
  get_transpose {a : Literal K} : a.HasShape matrix → ∀ r < matrix.rows, ∀ c < matrix.cols,
    a.transpose.get r c = a.get c r
  get_outer {u v : Literal K} : u.HasShape column → v.HasShape column →
    ∀ r < matrix.rows, ∀ c < matrix.cols,
      (outer u v matrix).get r c = u.component r * v.component c
  one_product {b : Literal K} {t : Shape} : t = matrix ∨ t = column → b.HasShape t →
    (one matrix).product b t = b
  product_one {a : Literal K} : a.HasShape matrix → a.product (one matrix) matrix = a
  dot_product {a b g : Literal K} : a.HasShape matrix → b.HasShape matrix → g.HasShape matrix →
    g.dot (a.product b matrix) = (g.product b.transpose matrix).dot a ∧
      g.dot (a.product b matrix) = (a.transpose.product g matrix).dot b
  dot_column {a g x : Literal K} : a.HasShape matrix → g.HasShape column → x.HasShape column →
    g.dot (a.product x column) = (outer g x matrix).dot a ∧
      g.dot (a.product x column) = (a.transpose.product g column).dot x
  dot_outer {g u v : Literal K} : g.HasShape matrix → u.HasShape column → v.HasShape column →
    g.dot (outer u v matrix) = (g.product v column).dot u ∧
      g.dot (outer u v matrix) = (g.transpose.product u column).dot v

end Literal

namespace Standard

open Literal

variable {matrix column t : Shape}

/-- What a matrix is multiplied with has as many rows as the matrix. -/
theorem IsColumn.dims_right (h : IsColumn matrix column) (ht : t = matrix ∨ t = column) :
    t.HasDims column.rows t.cols := by
  rcases ht with rfl | rfl
  · exact ⟨h.dims.2.1.1, rfl⟩
  · exact ⟨rfl, rfl⟩

/-- Over a commutative ring, literals are matrices in column-major order. -/
theorem matrixAlgebra_of_isColumn {K : Type} [CommRing K] [Arithmetic K] [RingArithmetic K]
    (h : IsColumn matrix column) : MatrixAlgebra K matrix column := by
  obtain ⟨isMatrix, square, upright⟩ := h.dims
  have rows : matrix.rows = column.rows := square.1
  have cols : matrix.cols = column.rows := square.2
  constructor
  case layout =>
    intro a t _ ha r hr c hc
    exact ha.getElem?_eq_get hr hc
  case get_product =>
    intro a b t ht ha hb r hr c hc
    have right := h.dims_right ht
    rw [cols]
    exact Literal.get_product ha hb square right right (right.1 ▸ hr) hc
  case get_transpose =>
    intro a ha r hr c hc
    exact Literal.get_transpose ha square (rows ▸ hr) (cols ▸ hc)
  case get_outer =>
    intro u v _ _ r hr c hc
    exact Literal.get_outer u v square (rows ▸ hr) (cols ▸ hc)
  case one_product =>
    intro b t ht hb
    exact Literal.one_product hb isMatrix square (h.dims_right ht)
  case product_one =>
    intro a ha
    exact Literal.product_one ha isMatrix square
  case dot_product =>
    intro a b g ha hb hg
    exact ⟨dot_product_left hg ha hb square, dot_product_right hg ha hb square square⟩
  case dot_column =>
    intro a g x ha hg hx
    exact ⟨dot_product_outer hg ha hx square upright, dot_product_right hg ha hx square upright⟩
  case dot_outer =>
    intro g u v hg hu hv
    exact ⟨dot_outer_left hg hu hv square upright, dot_outer_right hg hu hv square upright⟩

/-- A matrix that is not symmetric, and two columns. -/
theorem matrixAlgebra_numbered :
    let a : Literal ℚ := ⟨.mat33, [0, 1, 2, 3, 4, 5, 6, 7, 8]⟩
    let g : Literal ℚ := ⟨.vec3, [1, 2, 3]⟩
    let x : Literal ℚ := ⟨.vec3, [2, 1, 0]⟩
    IsColumn .mat33 .vec3 ∧ (a.product x .vec3).get 1 0 = 6 ∧ a.transpose.get 0 2 = 2 ∧
      (outer g x .mat33).get 2 0 = 6 ∧
      g.dot (a.product x .vec3) = (outer g x .mat33).dot a ∧
      g.dot (a.product x .vec3) = (a.transpose.product g .vec3).dot x := by
  intro a g x
  have column : IsColumn .mat33 .vec3 := by simp [IsColumn]
  have laws : MatrixAlgebra ℚ .mat33 .vec3 := matrixAlgebra_of_isColumn column
  have ha : a.HasShape .mat33 := .of_length rfl rfl
  have hg : g.HasShape .vec3 := .of_length rfl rfl
  have hx : x.HasShape .vec3 := .of_length rfl rfl
  refine ⟨column, ?_, ?_, ?_, laws.dot_column ha hg hx⟩
  · rw [laws.get_product (.inr rfl) ha hx 1 (by decide) 0 (by decide)]
    -- the row of the matrix is 1, 4, 7
    change ∑ k ∈ Finset.range 3, a.get 1 k * x.get k 0 = 6
    rw [Finset.sum_range_succ, Finset.sum_range_succ, Finset.sum_range_one]
    change (1 : ℚ) * 2 + 4 * 1 + 7 * 0 = 6
    norm_num
  · rw [laws.get_transpose ha 0 (by decide) 2 (by decide)]
    rfl
  · rw [laws.get_outer hg hx 2 (by decide) 0 (by decide)]
    change (3 : ℚ) * 2 = 6
    norm_num

end Standard

end SymbolicLinalg
