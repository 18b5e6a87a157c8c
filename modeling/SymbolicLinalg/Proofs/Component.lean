import SymbolicLinalg.Node.Typing
import SymbolicLinalg.Proofs.Exact

/-!
# Component — literals by shape and component

`Literal.HasShape a s` says that `a` is a literal of the shape `s` with all its components.  Such
literals are equal if their components are, and every operation on literals is described by the
components of its result.

`Literal.convert` reads a literal in another arithmetic, and a map of arithmetics carries every
operation over.
-/

namespace SymbolicLinalg

namespace Literal

variable {K L : Type}

/-! ## Shapes -/

/-- A literal of the shape, with all its components. -/
structure HasShape (a : Literal K) (s : Shape) : Prop where
  shape : a.shape = s
  complete : a.Complete

namespace HasShape

variable {a b : Literal K} {s : Shape}

theorem length (h : a.HasShape s) : a.components.length = s.size := by
  rw [← h.shape]
  exact h.complete

theorem of_length (shape : a.shape = s) (length : a.components.length = s.size) :
    a.HasShape s := by
  subst shape
  exact ⟨rfl, length⟩

theorem map (h : a.HasShape s) (f : K → K) : (a.map f).HasShape s :=
  .of_length h.shape (by simp [Literal.map, h.length])

theorem zipWith (ha : a.HasShape s) (hb : b.HasShape s) (f : K → K → K) :
    (Literal.zipWith f a b).HasShape s :=
  .of_length ha.shape (by simp [Literal.zipWith, ha.length, hb.length])

theorem scale [Arithmetic K] (h : a.HasShape s) (x : K) : (a.scale x).HasShape s :=
  h.map _

theorem transpose [Arithmetic K] (h : a.HasShape s) : a.transpose.HasShape s :=
  .of_length h.shape (by rw [Literal.transpose, length_ofFn, h.shape])

end HasShape

theorem hasShape_ofFn (s : Shape) (f : Nat → K) : (ofFn s f).HasShape s :=
  .of_length rfl (length_ofFn s f)

theorem hasShape_scalar (x : K) : (scalar x).HasShape .scalar :=
  .of_length rfl rfl

theorem hasShape_zero [Arithmetic K] (s : Shape) : (zero s : Literal K).HasShape s :=
  hasShape_ofFn s _

theorem hasShape_one [Arithmetic K] (s : Shape) : (one s : Literal K).HasShape s :=
  hasShape_ofFn s _

theorem hasShape_oneHot [Arithmetic K] (s : Shape) (i : Nat) :
    (oneHot s i : Literal K).HasShape s :=
  hasShape_ofFn s _

theorem hasShape_product [Arithmetic K] (a b : Literal K) (s : Shape) :
    (a.product b s).HasShape s :=
  hasShape_ofFn s _

theorem hasShape_outer [Arithmetic K] (a b : Literal K) (s : Shape) :
    (outer a b s).HasShape s :=
  hasShape_ofFn s _

theorem zipWith_scalar (f : K → K → K) (x y : K) :
    zipWith f (scalar x) (scalar y) = scalar (f x y) := rfl

theorem map_scalar (f : K → K) (x : K) : (scalar x).map f = scalar (f x) := rfl

/-! ## Components -/

section

variable [Arithmetic K] {a b : Literal K} {s : Shape} {i : Nat}

theorem component_eq_getElem (h : i < a.components.length) :
    a.component i = a.components[i] := by
  simp [component, List.getD_eq_getElem?_getD, h]

/-- Literals of one shape are equal if their components are. -/
theorem HasShape.ext (ha : a.HasShape s) (hb : b.HasShape s)
    (h : ∀ i < s.size, a.component i = b.component i) : a = b := by
  have components : a.components = b.components := by
    refine List.ext_getElem (ha.length.trans hb.length.symm) ?_
    intro i hi hi'
    have := h i (ha.length ▸ hi)
    rwa [component_eq_getElem hi, component_eq_getElem hi'] at this
  have shape : a.shape = b.shape := ha.shape.trans hb.shape.symm
  cases a
  cases b
  simp_all

theorem HasShape.component_map (ha : a.HasShape s) (hi : i < s.size) (f : K → K) :
    (a.map f).component i = f (a.component i) := by
  have bound : i < a.components.length := ha.length ▸ hi
  rw [component_eq_getElem bound, component_eq_getElem (by simpa [Literal.map] using bound)]
  simp [Literal.map]

theorem HasShape.component_zipWith (ha : a.HasShape s) (hb : b.HasShape s) (hi : i < s.size)
    (f : K → K → K) :
    (Literal.zipWith f a b).component i = f (a.component i) (b.component i) := by
  have left : i < a.components.length := ha.length ▸ hi
  have right : i < b.components.length := hb.length ▸ hi
  rw [component_eq_getElem left, component_eq_getElem right,
    component_eq_getElem (by simpa [Literal.zipWith, Nat.lt_min] using ⟨left, right⟩)]
  simp [Literal.zipWith]

theorem HasShape.component_scale (ha : a.HasShape s) (hi : i < s.size) (x : K) :
    (a.scale x).component i = Arithmetic.mul x (a.component i) :=
  ha.component_map hi _

theorem HasShape.get_eq (ha : a.HasShape s) (r c : Nat) : a.get r c = a.component (s.index r c) := by
  rw [get, ha.shape]

@[simp] theorem component_scalar (x : K) : (scalar x).component 0 = x := rfl

/-- A scalar literal is made of its only component. -/
theorem HasShape.eq_scalar (ha : a.HasShape .scalar) : a = scalar (a.component 0) := by
  refine ha.ext (hasShape_scalar _) ?_
  intro i hi
  have first : i = 0 := Nat.lt_one_iff.1 hi
  rw [first, component_scalar]

theorem HasShape.exists_scalar (ha : a.HasShape .scalar) : ∃ x, a = scalar x :=
  ⟨a.component 0, ha.eq_scalar⟩

@[simp] theorem component_zero : (zero s : Literal K).component i = Arithmetic.zero := by
  by_cases hi : i < s.size
  · exact component_ofFn hi
  · have : (zero s : Literal K).components.length ≤ i := by
      rw [zero, length_ofFn]
      exact Nat.le_of_not_lt hi
    simp [component, List.getD_eq_getElem?_getD, List.getElem?_eq_none this]

end

/-! ## Reading in another arithmetic -/

/-- The literal with every component replaced. -/
def convert (f : K → L) (a : Literal K) : Literal L :=
  ⟨a.shape, a.components.map f⟩

theorem HasShape.convert {a : Literal K} {s : Shape} (h : a.HasShape s) (f : K → L) :
    (a.convert f).HasShape s :=
  .of_length h.shape (by simp [Literal.convert, h.length])

theorem convert_ofFn (f : K → L) (s : Shape) (g : Nat → K) :
    (ofFn s g).convert f = ofFn s fun i => f (g i) := by
  simp [convert, ofFn, Function.comp_def]

theorem convert_scalar (f : K → L) (x : K) : (scalar x).convert f = scalar (f x) := rfl

theorem convert_map {f : K → L} {g : K → K} {g' : L → L} (h : ∀ x, f (g x) = g' (f x))
    (a : Literal K) : (a.map g).convert f = (a.convert f).map g' := by
  simp [convert, map, Function.comp_def, h]

theorem convert_zipWith {f : K → L} {g : K → K → K} {g' : L → L → L}
    (h : ∀ x y, f (g x y) = g' (f x) (f y)) (a b : Literal K) :
    (zipWith g a b).convert f = zipWith g' (a.convert f) (b.convert f) := by
  simp [convert, zipWith, List.map_zipWith, List.zipWith_map, h]

section

variable [Arithmetic K] [Arithmetic L] {f : K → L}

theorem component_convert (h : f Arithmetic.zero = Arithmetic.zero) (a : Literal K) (i : Nat) :
    (a.convert f).component i = f (a.component i) := by
  rw [component, component, ← h]
  simp [convert, List.getD_eq_getElem?_getD, Option.getD_map]

theorem convert_zero (h : Arithmetic.Hom f) (s : Shape) :
    (zero s : Literal K).convert f = zero s := by
  rw [zero, convert_ofFn, h.zero]
  rfl

theorem convert_one (h : Arithmetic.Hom f) (s : Shape) :
    (one s : Literal K).convert f = one s := by
  rw [one, convert_ofFn]
  simp only [apply_ite f, h.zero, h.one]
  rfl

theorem convert_scale (h : Arithmetic.Hom f) (x : K) (a : Literal K) :
    (a.scale x).convert f = (a.convert f).scale (f x) :=
  convert_map (h.mul x) a

theorem convert_dot (h : Arithmetic.Hom f) (a b : Literal K) :
    f (a.dot b) = (a.convert f).dot (b.convert f) := by
  rw [dot, h.sum, List.map_zipWith, dot]
  simp [convert, List.zipWith_map, h.mul]

theorem get_convert (h : Arithmetic.Hom f) (a : Literal K) (r c : Nat) :
    (a.convert f).get r c = f (a.get r c) :=
  component_convert h.zero a _

theorem convert_product (h : Arithmetic.Hom f) (a b : Literal K) (s : Shape) :
    (a.product b s).convert f = (a.convert f).product (b.convert f) s := by
  rw [product, convert_ofFn, product]
  congr 1
  funext i
  rw [h.sum, List.map_map]
  simp only [Function.comp_def, h.mul, get_convert h]
  rfl

theorem convert_transpose (h : Arithmetic.Hom f) (a : Literal K) :
    a.transpose.convert f = (a.convert f).transpose := by
  rw [transpose, convert_ofFn, transpose]
  simp only [get_convert h]
  rfl

theorem convert_outer (h : Arithmetic.Hom f) (a b : Literal K) (s : Shape) :
    (outer a b s).convert f = outer (a.convert f) (b.convert f) s := by
  rw [outer, convert_ofFn, outer]
  simp only [h.mul, component_convert h.zero]

end

end Literal

end SymbolicLinalg
