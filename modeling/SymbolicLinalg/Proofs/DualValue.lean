import SymbolicLinalg.Proofs.Differentiation

/-!
# DualValue — expressions in dual numbers

`ρ.along x t` lets one leaf move along a tangent and keeps every other leaf as it is.  Evaluated
there in dual numbers, an expression has its value as the real part, and the tangent is its
directional derivative.

There are no rules for the rotation about an arbitrary axis and the way back from homogeneous
coordinates.  An expression is smooth if it has neither of them, and smooth above a leaf if neither
of them is applied above the leaf; whatever does not lie above the leaf stays as it is.
-/

namespace SymbolicLinalg

namespace Assignment

variable {K : Type} [Arithmetic K]

/-- One leaf moves along a tangent. -/
def along (ρ : Assignment K) (x : Node K) (t : Literal K) : Assignment (Dual K) :=
  fun id => if id = x.id then (ρ id).withTangent t else (ρ id).steady

variable {ρ : Assignment K} {x : Node K} {t : Literal K} {id : NodeId}

theorem along_of_eq (same : id = x.id) : ρ.along x t id = (ρ id).withTangent t :=
  if_pos same

theorem along_of_ne (ne : id ≠ x.id) : ρ.along x t id = (ρ id).steady :=
  if_neg ne

end Assignment

namespace Standard

variable {K : Type} [Arithmetic K] [Numeral K]

/-! ## Smooth expressions -/

/-- No node applies an operator that cannot be differentiated. -/
def Smooth (n : Node K) : Prop :=
  n.AppliesOnly fun s => s.name ≠ "mat44Rotation" ∧ s.name ≠ "fromHomo"

/-- No operator that cannot be differentiated is applied above a leaf. -/
def SmoothAbove (x n : Node K) : Prop :=
  ∀ id s operands, n.Reaches (.application id s operands) →
    s.name = "mat44Rotation" ∨ s.name = "fromHomo" →
      ¬ (Node.application id s operands).Reaches x

omit [Arithmetic K] [Numeral K] in
theorem SmoothAbove.of_reaches {x n m : Node K} (h : SmoothAbove x n) (below : n.Reaches m) :
    SmoothAbove x m :=
  fun id s operands hm => h id s operands (below.trans hm)

omit [Arithmetic K] [Numeral K] in
theorem Smooth.above {n : Node K} (h : Smooth n) (x : Node K) : SmoothAbove x n := by
  intro id s operands below named
  rcases h id s operands below with ⟨rotation, point⟩
  rcases named with named | named
  · exact absurd named rotation
  · exact absurd named point

theorem signature_of_unsmooth : ∀ t ∈ signatures, t.name = "mat44Rotation" ∨ t.name = "fromHomo" →
    t = Operator.axisAngleRotation.signature ∨ t = Operator.fromHomogeneous.signature := by
  decide +kernel

/-- The operators without a derivative are the two that are named. -/
theorem Operator.isDifferentiable_iff (o : Operator) :
    o.IsDifferentiable ↔ o.signature.name ≠ "mat44Rotation" ∧ o.signature.name ≠ "fromHomo" := by
  constructor
  · -- the hooks of a signature are those of its operator, and the two have none
    intro h
    rw [← not_or]
    intro named
    have present := Operator.deriv_isSome (K := Float) h
    rw [← o.hooks_eq] at present
    rcases signature_of_unsmooth _ (signature_mem_signatures o) named with same | same
    · rw [same, Operator.hooks_eq] at present
      exact absurd present Bool.false_ne_true
    · rw [same, Operator.hooks_eq] at present
      exact absurd present Bool.false_ne_true
  · intro plain
    rcases plain with ⟨rotation, point⟩
    constructor
    · rintro rfl
      exact rotation rfl
    · rintro rfl
      exact point rfl

omit [Arithmetic K] [Numeral K] in
theorem smooth_application {id : NodeId} {o : Operator} {operands : List (Node K)} :
    Smooth (.application id o.signature operands) ↔
      o.IsDifferentiable ∧ ∀ m ∈ operands, Smooth m := by
  rw [o.isDifferentiable_iff]
  exact Node.appliesOnly_application

/-! ## Values in dual numbers -/

/-- The value in dual numbers where one leaf moves along a tangent. -/
def dualValue (ρ : Assignment K) (x : Node K) (t : Literal K) (n : Node K) : Literal (Dual K) :=
  n.valueIn Literal.steady Standard.meaning (ρ.along x t)

/-- The rate of change of an expression where one leaf moves along a tangent. -/
def directional (ρ : Assignment K) (x : Node K) (t : Literal K) (n : Node K) : Literal K :=
  (dualValue ρ x t n).tangent

variable {Φ : Prop} {ρ : Assignment K} {x : Node K} {t : Literal K} {n : Node K}

theorem dualValue_application (id : NodeId) (o : Operator) (operands : List (Node K)) :
    dualValue ρ x t (.application id o.signature operands) =
      o.value (operands.map (dualValue ρ x t)) := by
  rw [dualValue, Node.valueIn, Node.valuesIn_eq_map]
  rfl

/-- No other node below has the identity of the leaf. -/
abbrev Distinguishes (n x : Node K) : Prop :=
  ∀ y, n.Reaches y → y.id = x.id → y = x

/-- The leaf may move along the tangent: it is told apart from other nodes, the tangent has its shape,
the assignment fits, and the expression is smooth above the leaf. -/
structure Moving (ρ : Assignment K) (x : Node K) (t : Literal K) (n : Node K) : Prop where
  unique : Distinguishes n x
  tangent : t.HasShape x.shape
  fits : ρ.Fits n
  smooth : SmoothAbove x n

omit [Arithmetic K] [Numeral K] in
theorem Moving.of_reaches {m : Node K} (h : Moving ρ x t n) (below : n.Reaches m) :
    Moving ρ x t m :=
  ⟨fun y hy => h.unique y (below.trans hy), h.tangent, h.fits.of_reaches below,
    h.smooth.of_reaches below⟩

omit [Numeral K] in
theorem Moving.along_leaf {id : NodeId} {name : String} {s : Shape}
    (h : Moving ρ x t (.leaf id name s)) (same : id = x.id) :
    ρ.along x t id = (ρ id).withTangent t ∧ (ρ id).HasShape s ∧ t.HasShape s := by
  have moving : Node.leaf id name s = x := h.unique _ (.refl _) same
  have tangent := h.tangent
  rw [← moving] at tangent
  exact ⟨Assignment.along_of_eq same, h.fits id name s (.refl _), tangent⟩

theorem hasShape_dualValue (typed : Typed n) (h : Moving ρ x t n) :
    (dualValue ρ x t n).HasShape n.shape := by
  have fits : (ρ.along x t).Fits n := by
    intro id name s below
    by_cases same : id = x.id
    · rcases (h.of_reaches below).along_leaf same with ⟨along, leaf, tangent⟩
      rw [along]
      exact Literal.hasShape_withTangent leaf tangent
    · rw [Assignment.along_of_ne same]
      exact (h.fits id name s below).convert _
  exact hasShape_valueIn (fun v complete => (Literal.HasShape.mk rfl complete).convert _) typed fits

section

variable [Field K] [FieldArithmetic K]

/-- An expression that is not above the leaf does not move. -/
theorem dualValue_of_not_reaches (typed : Typed n) (apart : ∀ y, n.Reaches y → y.id ≠ x.id) :
    dualValue ρ x t n = (n.value Standard.meaning ρ).steady := by
  induction n using Node.induct with
  | constant id v => rfl
  | leaf id name s => exact Assignment.along_of_ne (apart _ (.refl _))
  | application id s operands ih =>
      rcases typed.operator with ⟨o, rfl, shapes, operandsTyped⟩
      -- no operand reaches the leaf either
      have parts : operands.map (dualValue ρ x t) =
          (operands.map (Node.value Standard.meaning ρ)).map (Literal.convert Dual.constant) := by
        rw [List.map_map]
        refine List.map_congr_left ?_
        intro m hm
        exact ih m hm (operandsTyped m hm) fun y hy => apart y (.step hm hy)
      have length : (operands.map (Node.value Standard.meaning ρ)).length =
          o.signature.operands.length := by
        rw [← shapes, List.length_map, List.length_map]
      rw [dualValue_application, Node.value_application, parts]
      change _ = (o.value _).convert Dual.constant
      by_cases rotation : o = .axisAngleRotation
      · -- zero is told apart from other numbers in the same way
        subst rotation
        rcases List.length_eq_two.1 length with ⟨axis, angle, both⟩
        rw [both]
        simp only [List.map_cons, List.map_nil, Operator.value_axisAngleRotation]
        rw [Operator.convert_rodrigues Dual.constant_hom Dual.isZero_constant,
          Literal.component_convert (f := Dual.constant) rfl]
      · exact (o.convert_value Dual.constant_hom length rotation).symm

/-- The real part of the value in dual numbers is the value. -/
theorem realPart_dualValue (typed : Typed n) (h : Moving ρ x t n) :
    (dualValue ρ x t n).realPart = n.value Standard.meaning ρ := by
  induction n using Node.induct with
  | constant id v => exact Literal.realPart_steady v
  | leaf id name s =>
      change (ρ.along x t id).realPart = ρ id
      by_cases same : id = x.id
      · rcases h.along_leaf same with ⟨along, leaf, tangent⟩
        rw [along, Literal.realPart_withTangent leaf tangent]
      · rw [Assignment.along_of_ne same, Literal.realPart_steady]
  | application id s operands ih =>
      rcases typed.operator with ⟨o, rfl, shapes, operandsTyped⟩
      by_cases differentiable : o.IsDifferentiable
      · -- taking real parts is a map of arithmetics
        have length : (operands.map (dualValue ρ x t)).length = o.signature.operands.length := by
          rw [← shapes, List.length_map, List.length_map]
        have parts : (operands.map (dualValue ρ x t)).map (Literal.convert Dual.real) =
            operands.map (Node.value Standard.meaning ρ) := by
          rw [List.map_map]
          refine List.map_congr_left ?_
          intro m hm
          exact ih m hm (operandsTyped m hm) (h.of_reaches (.of_mem_operands hm))
        rw [dualValue_application, Node.value_application]
        change (o.value _).convert Dual.real = _
        rw [o.convert_value Dual.real_hom length differentiable.1, parts]
        rfl
      · -- the application is not above the leaf
        have named : o.signature.name = "mat44Rotation" ∨ o.signature.name = "fromHomo" := by
          rw [o.isDifferentiable_iff, ← not_or, not_not] at differentiable
          exact differentiable
        have apart : ∀ y, (Node.application id o.signature operands).Reaches y → y.id ≠ x.id := by
          intro y hy same
          exact h.smooth id _ operands (.refl _) named (h.unique y hy same ▸ hy)
        rw [dualValue_of_not_reaches typed apart, Literal.realPart_steady]

/-- The nodes of an expression move as they are evaluated. -/
theorem moves_of_reaches {e : Node K} (typed : Typed e) (moving : Φ → Moving ρ x t e)
    (below : e.Reaches n) :
    Moves Φ ρ (dualValue ρ x t) n n.shape := by
  have typed := typed.of_reaches below
  have moving (hΦ : Φ) : Moving ρ x t n := (moving hΦ).of_reaches below
  constructor
  · refine (Denotes.of_typed typed fun hΦ => (moving hΦ).fits).of_eq ?_
    intro hΦ
    exact (realPart_dualValue typed (moving hΦ)).symm
  · exact fun hΦ => hasShape_dualValue typed (moving hΦ)

end

end Standard

end SymbolicLinalg
