import SymbolicLinalg.Datum
import SymbolicLinalg.Node.Typing

/-!
# Encoding — what a literal is after it was stored and read again

A literal has one list of numbers on the outside, and reading takes it as it is: the length of the
list is not compared with the shape.  So a literal that was read has as many components as the list
had numbers, and is a literal that `Literal.ofComponents` would build exactly when that is the size
of the shape.  What `Literal.ofComponents` built does come back from every format that keeps finite
numbers.

* `toLiteral?_eq_some_iff`: the data that are read, and as what;
* `Format`: a way of storing that loses nothing of finite data;
* `toLiteral?_ofComponents`: reading, and reading what was written.
-/

namespace SymbolicLinalg

namespace Datum

variable {d shape : Datum} {s : Shape} {v : Literal Float} {items : List Datum}
  {numbers : List Float}

/-! ## Fields -/

theorem toShape?_ofShape (s : Shape) : (ofShape s).toShape? = some s := by
  cases s <;> rfl

theorem number?_eq_some_iff {x : Float} : d.number? = some x ↔ d = .number x := by
  cases d <;> simp [number?]

theorem items?_eq_some_iff : d.items? = some items ↔ d = .list items := by
  cases d <;> simp [items?]

/-- A list of numbers is read number by number, and only a list of numbers is. -/
theorem mapM_number?_eq_some_iff :
    items.mapM number? = some numbers ↔ items = numbers.map .number := by
  induction items generalizing numbers with
  | nil => cases numbers <;> simp
  | cons d rest ih =>
    rw [List.mapM_cons]
    simp only [Option.bind_eq_bind, Option.bind_eq_some_iff, Option.pure_def, Option.some.injEq]
    constructor
    · rintro ⟨x, first, others, tail, rfl⟩
      rw [List.map_cons, number?_eq_some_iff.mp first, ih.mp tail]
    · intro h
      cases numbers with
      | nil => exact absurd h (List.cons_ne_nil d rest)
      | cons x others =>
        rw [List.map_cons, List.cons.injEq] at h
        exact ⟨x, number?_eq_some_iff.mpr h.1, others, ih.mpr h.2, rfl⟩

/-- The two fields are a shape and a list of numbers of any length. -/
theorem toLiteral?_eq_some_iff :
    d.toLiteral? = some v ↔
      ∃ shape, d.literalFields? = some (shape, .list (v.components.map .number)) ∧
        shape.toShape? = some v.shape := by
  simp only [toLiteral?, Option.bind_eq_bind, Option.bind_eq_some_iff, Option.pure_def,
    Option.some.injEq]
  constructor
  · rintro ⟨⟨shape, components⟩, fields, s, name, items, list, numbers, read, rfl⟩
    have listed : components = .list (numbers.map .number) :=
      mapM_number?_eq_some_iff.mp read ▸ items?_eq_some_iff.mp list
    exact ⟨shape, listed ▸ fields, name⟩
  · rintro ⟨shape, fields, name⟩
    exact ⟨(shape, _), fields, v.shape, name, _, rfl, v.components,
      mapM_number?_eq_some_iff.mpr rfl, rfl⟩

/-! ## Formats -/

/-- Every number is finite. -/
inductive Finite : Datum → Prop where
  | null : Finite .null
  | bool (value : Bool) : Finite (.bool value)
  | number {value : Float} : value.isFinite = true → Finite (.number value)
  | text (value : String) : Finite (.text value)
  | list {items : List Datum} : (∀ d ∈ items, Finite d) → Finite (.list items)
  | record {fields : List (String × Datum)} :
      (∀ field ∈ fields, Finite field.2) → Finite (.record fields)

/-- A way of storing data that gives back all data whose numbers are finite. -/
structure Format (α : Type) where
  write : Datum → α
  read : α → Option Datum
  read_write : ∀ d : Datum, d.Finite → read (write d) = some d

end Datum

namespace Literal

open Datum

variable {v : Literal Float} {s : Shape} {components : List Float} {d : Datum}

/-! ## Literals -/

theorem complete_of_ofComponents {K : Type} {v : Literal K} {components : List K}
    (h : ofComponents s components = .ok v) : v.Complete := by
  unfold ofComponents at h
  split at h
  · next count =>
    cases h
    exact count
  · cases h

theorem ofComponents_eq_ok_iff {K : Type} (v : Literal K) :
    ofComponents v.shape v.components = .ok v ↔ v.Complete := by
  refine ⟨complete_of_ofComponents, ?_⟩
  intro complete
  exact if_pos complete

/-- The forms of a literal as data: a record of its named fields, or a list of them. -/
inductive Encodes (v : Literal Float) : Datum → Prop where
  | record : v.Encodes (.ofLiteral v)
  | list : v.Encodes (.list [.ofShape v.shape, .list (v.components.map .number)])

theorem Encodes.toLiteral? (h : v.Encodes d) : d.toLiteral? = some v := by
  cases h with
  | record => exact toLiteral?_eq_some_iff.mpr ⟨_, rfl, toShape?_ofShape v.shape⟩
  | list => exact toLiteral?_eq_some_iff.mpr ⟨_, rfl, toShape?_ofShape v.shape⟩

theorem Encodes.finite (h : v.Encodes d) (finite : ∀ x ∈ v.components, x.isFinite = true) :
    d.Finite := by
  have components : (Datum.list (v.components.map .number)).Finite := by
    refine .list fun d hd => ?_
    obtain ⟨x, hx, rfl⟩ := List.mem_map.mp hd
    exact .number (finite x hx)
  cases h with
  | record => exact .record (by simpa using ⟨.text _, components⟩)
  | list => exact .list (by simpa using ⟨.text _, components⟩)

/-- Only what is not a number differs from itself. -/
theorem beq_self_of_isFinite {x : Float} (h : x.isFinite = true) : x.beq x = true := by
  change x.toModel.unpack.isFinite = true at h
  change x.toModel.unpack.beq x.toModel.unpack = true
  cases unpacked : x.toModel.unpack with
  | notANumber => rw [unpacked] at h; cases h
  | infinity sign => rw [unpacked] at h; cases h
  | zero sign => rfl
  | finite sign mantissa exponent _ =>
    -- both signs compare exponents first and mantissas after them, the negative one in reverse
    have same : (compare exponent exponent).then (compare mantissa mantissa) = .eq := by
      rw [Std.ReflOrd.compare_self, Std.ReflOrd.compare_self]
      rfl
    cases sign with
    | negative => exact congrArg (fun order => some order.swap == some .eq) same
    | positive => exact congrArg (fun order => some order == some .eq) same

theorem sameComponents_self {xs : List Float} (finite : ∀ x ∈ xs, x.isFinite = true) :
    sameComponents xs xs = true := by
  induction xs with
  | nil => rfl
  | cons x rest ih =>
    rw [List.forall_mem_cons] at finite
    exact Bool.and_eq_true_iff.mpr ⟨beq_self_of_isFinite finite.1, ih finite.2⟩

theorem isEqual_self (finite : ∀ x ∈ v.components, x.isFinite = true) : v.isEqual v = true :=
  Bool.and_eq_true_iff.mpr ⟨beq_self_eq_true v.shape, sameComponents_self finite⟩

end Literal

namespace Datum

/-- What is read has the numbers that were listed, and is a literal that could be constructed if
they are as many as the shape has components; what was constructed from finite numbers is read back
as it was. -/
theorem toLiteral?_ofComponents {α : Type} (format : Format α) :
    (∀ (d : Datum) (v : Literal Float), d.toLiteral? = some v →
      ∃ shape items, d.literalFields? = some (shape, .list items) ∧
        shape.toShape? = some v.shape ∧ items = v.components.map .number ∧
        (items.length = v.shape.size → Literal.ofComponents v.shape v.components = .ok v) ∧
        (items.length ≠ v.shape.size →
          Literal.ofComponents v.shape v.components =
            .error (.wrongCount v.shape items.length))) ∧
    ∀ (s : Shape) (components : List Float) (v : Literal Float),
      Literal.ofComponents s components = .ok v →
      (∀ x ∈ v.components, x.isFinite = true) →
      ∀ d, v.Encodes d →
        (format.read (format.write d)).bind toLiteral? = some v ∧ v.isEqual v = true ∧
          v.Complete := by
  constructor
  · intro d v read
    obtain ⟨shape, fields, name⟩ := toLiteral?_eq_some_iff.mp read
    refine ⟨shape, _, fields, name, rfl, ?_, ?_⟩
    · intro count
      rw [List.length_map] at count
      exact (Literal.ofComponents_eq_ok_iff v).mpr count
    · intro count
      rw [List.length_map] at count ⊢
      exact if_neg count
  · intro s components v built finite d form
    rw [format.read_write d (form.finite finite), Option.bind_some]
    exact ⟨form.toLiteral?, Literal.isEqual_self finite, Literal.complete_of_ofComponents built⟩

/-- A vector comes back from its own data, and a number without components is read as it is but
could not be constructed. -/
theorem toLiteral?_ofComponents_vector :
    ((ofLiteral ⟨.vec3, [1.0, 2.0, 3.0]⟩).toLiteral? = some ⟨.vec3, [1.0, 2.0, 3.0]⟩ ∧
      (⟨.vec3, [1.0, 2.0, 3.0]⟩ : Literal Float).isEqual ⟨.vec3, [1.0, 2.0, 3.0]⟩ = true) ∧
    Literal.ofComponents Shape.scalar ([] : List Float) = .error (.wrongCount .scalar 0) := by
  have ⟨read, written⟩ := toLiteral?_ofComponents (⟨id, some, fun _ _ => rfl⟩ : Format Datum)
  constructor
  · have ⟨same, equal, _⟩ :=
      written .vec3 [1.0, 2.0, 3.0] _ rfl (by decide +kernel) _ .record
    exact ⟨same, equal⟩
  · have ⟨_, items, fields, _, numbers, _, refused⟩ :=
      read (.list [.text "Scalar", .list []]) ⟨.scalar, []⟩ rfl
    subst numbers
    exact refused (by decide)

/-- A literal without components is read as a number. -/
theorem toLiteral?_incomplete :
    ¬ ∀ (d : Datum) (v : Literal Float), d.toLiteral? = some v → v.Complete := by
  intro complete
  have count := complete (.record [("ty", .text "Scalar"), ("data", .list [])]) ⟨.scalar, []⟩ rfl
  exact absurd count (by simp [Literal.Complete, Shape.size, Shape.rows, Shape.cols])

end Datum

end SymbolicLinalg
