import Mathlib.Tactic.FieldSimp
import SymbolicLinalg.Proofs.Assembly
import SymbolicLinalg.Proofs.Differentiation
import SymbolicLinalg.Proofs.Simplification

/-!
# Adjoint — what the `gradient` hooks contribute

A contribution carries the inner product of its gradient with the tangent of the operand it goes to.
Given the gradient `G` of an application, the contributions of its hook carry together the inner
product of `G` with the tangent of the application: the hook is the adjoint of differentiation.
-/

namespace SymbolicLinalg

namespace Standard

variable {K : Type} [Arithmetic K] [Numeral K] {Φ : Prop} {ρ : Assignment K}
  {D : Node K → Literal (Dual K)} {o : Operator} {operands : List (Node K)} {a b g : Node K}
  {G : Literal K} {s t : Shape}

/-! ## Contributions -/

/-- The inner product of a contributed gradient with the tangent of its operand. -/
def carriedBy (ρ : Assignment K) (D : Node K → Literal (Dual K)) (c : Contribution K) : K :=
  (c.gradient.value Standard.meaning ρ).dot (D c.operand).tangent

/-- What several contributions carry together. -/
def carried [AddMonoid K] (ρ : Assignment K) (D : Node K → Literal (Dual K))
    (contributions : List (Contribution K)) : K :=
  (contributions.map (carriedBy ρ D)).sum

/-- A contribution to an operand is taken, if its gradient has the shape of the operand. -/
def routing (Φ : Prop) (ρ : Assignment K) (operands : List (Node K)) :
    Recipe.Terms (Contribution K) Unit where
  grant c p := (c.operand ∈ operands ∧ ∃ C, Denotes Φ ρ c.gradient c.operand.shape C) ∧ p ()
  mono imp h := ⟨h.1, imp () h.2⟩

/-- The terms on which a gradient is propagated. -/
abbrev propagating (Φ : Prop) (ρ : Assignment K) (operands : List (Node K)) :
    Recipe.Contract K (Contribution K) Unit :=
  ⟨building .all Φ ρ, routing Φ ρ operands⟩

theorem ensures_contribute {post : List (Contribution K) → Unit → Prop}
    (ha : Moves Φ ρ D a s) (mem : a ∈ operands) (hg : Denotes Φ ρ g s G)
    (next : (Φ → carriedBy ρ D ⟨a, g⟩ = G.dot (D a).tangent) → post [⟨a, g⟩] ()) :
    (contribute a g).Ensures (propagating Φ ρ operands) post := by
  refine ⟨⟨mem, G, ?_⟩, next fun hΦ => ?_⟩
  · rw [ha.denotes.shape]
    exact hg
  · rw [carriedBy, hg.value hΦ]

section

variable [Field K] [FieldArithmetic K]

/-- The hook is the adjoint of differentiation. -/
def Propagates (Φ : Prop) (ρ : Assignment K) (D : Node K → Literal (Dual K)) (o : Operator)
    (operands : List (Node K)) : Prop :=
  ∀ gradient g G, (o.definition : Definition K).hooks.gradient = some gradient →
    Denotes Φ ρ g o.signature.result G →
      (gradient g operands).Ensures (propagating Φ ρ operands) fun asked _ =>
        Φ → carried ρ D asked = G.dot (o.value (operands.map D)).tangent

omit [FieldArithmetic K] in
theorem carried_one (c : Contribution K) : carried ρ D [c] = carriedBy ρ D c := by
  simp [carried]

omit [FieldArithmetic K] in
theorem carried_two (c d : Contribution K) :
    carried ρ D [c, d] = carriedBy ρ D c + carriedBy ρ D d := by
  simp [carried]

/-! ## Linear operators -/

theorem propagates_addition (h : s ≠ .genericScalar)
    (moves : MoveAll Φ ρ D operands [s, s]) : Propagates Φ ρ D (.addition s h) operands := by
  rcases moves with _ | ⟨ha, _ | ⟨hb, _ | _⟩⟩
  rename_i a b
  intro gradient g G same hg
  cases same
  refine Recipe.Ensures.bind (ensures_contribute ha (by simp) hg fun left => ?_)
  refine ensures_contribute hb (by simp) hg ?_
  intro right hΦ
  calc carried ρ D [⟨a, g⟩, ⟨b, g⟩] = G.dot (D a).tangent + G.dot (D b).tangent := by
        rw [carried_two, left hΦ, right hΦ]
    _ = G.dot (.zipWith Arithmetic.add (D a).tangent (D b).tangent) :=
        (Literal.dot_add (hg.hasShape hΦ) (ha.complete hΦ).tangent (hb.complete hΦ).tangent).symm
    _ = _ := by
        rw [← Literal.tangent_add, List.map_cons, List.map_cons, List.map_nil,
          Operator.value_addition]

theorem propagates_subtraction (h : s ≠ .genericScalar)
    (moves : MoveAll Φ ρ D operands [s, s]) : Propagates Φ ρ D (.subtraction s h) operands := by
  rcases moves with _ | ⟨ha, _ | ⟨hb, _ | _⟩⟩
  rename_i a b
  intro gradient g G same hg
  cases same
  -- the right operand is sent the negative gradient, which is built in its own way per shape
  refine Recipe.Ensures.bind (ensures_negated (fun _ _ _ => trivial) h hg fun minus hminus => ?_)
  refine Recipe.Ensures.bind (ensures_contribute ha (by simp) hg fun left => ?_)
  refine ensures_contribute hb (by simp) hminus ?_
  intro right hΦ
  have gradient := hg.hasShape hΦ
  have tangents := (ha.complete hΦ).tangent
  calc carried ρ D [⟨a, g⟩, ⟨b, minus⟩]
      = G.dot (D a).tangent + (G.map Arithmetic.neg).dot (D b).tangent := by
        rw [carried_two, left hΦ, right hΦ]
    _ = G.dot (D a).tangent - G.dot (D b).tangent := by
        rw [Literal.neg_dot gradient (hb.complete hΦ).tangent, sub_eq_add_neg]
    _ = G.dot (.zipWith Arithmetic.sub (D a).tangent (D b).tangent) :=
        (Literal.dot_sub gradient tangents (hb.complete hΦ).tangent).symm
    _ = _ := by
        rw [← Literal.tangent_sub, List.map_cons, List.map_cons, List.map_nil,
          Operator.value_subtraction]

theorem propagates_negation (moves : MoveAll Φ ρ D operands [.scalar]) :
    Propagates Φ ρ D .negation operands := by
  rcases moves with _ | ⟨ha, _ | _⟩
  rename_i a
  intro gradient g G same hg
  cases same
  refine Recipe.Ensures.bind (ensures_apply .negation (.one hg) trivial fun minus hminus => ?_)
  rw [Operator.value_negation] at hminus
  refine ensures_contribute ha (by simp) hminus ?_
  intro only hΦ
  calc carried ρ D [⟨a, minus⟩] = (G.map Arithmetic.neg).dot (D a).tangent := by
        rw [carried_one, only hΦ]
    _ = G.dot ((D a).tangent.map Arithmetic.neg) := by
        rw [Literal.neg_dot (hg.hasShape hΦ) (ha.complete hΦ).tangent,
          Literal.dot_neg (hg.hasShape hΦ) (ha.complete hΦ).tangent]
    _ = _ := by
        rw [← Literal.tangent_neg, List.map_cons, List.map_nil, Operator.value_negation]

theorem propagates_transposition (h : s.isMatrix = true) (moves : MoveAll Φ ρ D operands [s]) :
    Propagates Φ ρ D (.transposition s h) operands := by
  rcases moves with _ | ⟨ha, _ | _⟩
  rename_i a
  intro gradient g G same hg
  cases same
  refine Recipe.Ensures.bind (ensures_apply (.transposition s h) (.one hg) trivial fun x hx => ?_)
  rw [Operator.value_transposition] at hx
  refine ensures_contribute ha (by simp) hx ?_
  intro only hΦ
  calc carried ρ D [⟨a, x⟩] = G.transpose.dot (D a).tangent := by rw [carried_one, only hΦ]
    _ = G.dot (D a).tangent.transpose :=
        (Literal.dot_transpose (hg.hasShape hΦ) (ha.complete hΦ).tangent
          (Shape.hasDims_of_isMatrix h)).symm
    _ = _ := by
        rw [← Literal.tangent_transpose, List.map_cons, List.map_nil,
          Operator.value_transposition]

theorem propagates_selector (h : s.isScalar = false) {i : Nat} (lt : i < s.size)
    (moves : MoveAll Φ ρ D operands [s]) : Propagates Φ ρ D (.selector s h i lt) operands := by
  rcases moves with _ | ⟨ha, _ | _⟩
  rename_i a
  intro gradient g G same hg
  cases same
  -- the operand is sent the basis vector of the component, times the gradient
  refine Recipe.Ensures.bind
    (ensures_constant (Literal.hasShape_oneHot s i) fun basis hbasis => ?_)
  refine Recipe.Ensures.bind (ensures_apply (.scaling s h) (.two hg hbasis) trivial fun x hx => ?_)
  rw [Operator.value_scaling] at hx
  refine ensures_contribute ha (by simp) hx ?_
  intro only hΦ
  have tangent := (ha.complete hΦ).tangent
  calc carried ρ D [⟨a, x⟩]
      = ((Literal.oneHot s i).scale (G.component 0)).dot (D a).tangent := by
        rw [carried_one, only hΦ]
    _ = G.component 0 * (D a).tangent.component i := by
        rw [Literal.scale_dot tangent (Literal.hasShape_oneHot s i), Literal.oneHot_dot tangent lt]
    _ = G.dot (.scalar ((D a).component i).infinitesimal) := by
        rw [Literal.component_tangent,
          Literal.dot_of_scalar (hg.hasShape hΦ) (Literal.hasShape_scalar _)]
        rfl
    _ = _ := by
        rw [List.map_cons, List.map_nil, Operator.value_selector, Literal.tangent_scalar]

/-! ## Scalars -/

theorem propagates_multiplication (moves : MoveAll Φ ρ D operands [.scalar, .scalar]) :
    Propagates Φ ρ D .multiplication operands := by
  rcases moves with _ | ⟨ha, _ | ⟨hb, _ | _⟩⟩
  rename_i a b
  intro gradient g G same hg
  cases same
  refine Recipe.Ensures.bind
    (ensures_apply .multiplication (.two hg hb.denotes) trivial fun x hx => ?_)
  refine Recipe.Ensures.bind (ensures_contribute ha (by simp) hx fun left => ?_)
  refine Recipe.Ensures.bind
    (ensures_apply .multiplication (.two ha.denotes hg) trivial fun y hy => ?_)
  refine ensures_contribute hb (by simp) hy ?_
  intro right hΦ
  -- all three literals are scalars: the equation is one of the field
  rcases (hg.hasShape hΦ).exists_scalar with ⟨γ, rfl⟩
  rcases (ha.complete hΦ).exists_scalar with ⟨α, hα⟩
  rcases (hb.complete hΦ).exists_scalar with ⟨β, hβ⟩
  calc carried ρ D [⟨a, x⟩, ⟨b, y⟩]
      = γ * β.real * α.infinitesimal + α.real * γ * β.infinitesimal := by
        rw [carried_two, left hΦ, right hΦ, hα, hβ]
        simp only [Literal.tangent_scalar, Literal.realPart_scalar, Operator.value_multiplication,
          Literal.zipWith_scalar, Literal.dot_scalar, RingArithmetic.mul_eq]
    _ = γ * (α.infinitesimal * β.real + α.real * β.infinitesimal) := by ring
    _ = _ := by
        simp only [List.map_cons, List.map_nil, hα, hβ, Operator.value_multiplication,
          Literal.zipWith_scalar, Literal.tangent_scalar, Literal.dot_scalar,
          Dual.infinitesimal_mul]

theorem propagates_division (moves : MoveAll Φ ρ D operands [.scalar, .scalar]) :
    Propagates Φ ρ D .division operands := by
  rcases moves with _ | ⟨ha, _ | ⟨hb, _ | _⟩⟩
  rename_i a b
  intro gradient g G same hg
  cases same
  -- the dividend is sent `g / b`, the divisor `-(g / b * (a / b))`
  refine Recipe.Ensures.bind
    (ensures_apply .division (.two ha.denotes hb.denotes) trivial fun quotient hquotient => ?_)
  refine Recipe.Ensures.bind (ensures_apply .division (.two hg hb.denotes) trivial fun x hx => ?_)
  refine Recipe.Ensures.bind
    (ensures_apply .multiplication (.two hx hquotient) trivial fun product hproduct => ?_)
  refine Recipe.Ensures.bind (ensures_apply .negation (.one hproduct) trivial fun y hy => ?_)
  refine Recipe.Ensures.bind (ensures_contribute ha (by simp) hx fun left => ?_)
  refine ensures_contribute hb (by simp) hy ?_
  intro right hΦ
  rcases (hg.hasShape hΦ).exists_scalar with ⟨γ, rfl⟩
  rcases (ha.complete hΦ).exists_scalar with ⟨α, hα⟩
  rcases (hb.complete hΦ).exists_scalar with ⟨β, hβ⟩
  calc carried ρ D [⟨a, x⟩, ⟨b, y⟩]
      = γ / β.real * α.infinitesimal + -(γ / β.real * (α.real / β.real)) * β.infinitesimal := by
        rw [carried_two, left hΦ, right hΦ, hα, hβ]
        simp only [Literal.tangent_scalar, Literal.realPart_scalar, Operator.value_multiplication,
          Operator.value_division, Operator.value_negation, Literal.zipWith_scalar,
          Literal.map_scalar, Literal.dot_scalar, RingArithmetic.mul_eq, RingArithmetic.neg_eq,
          FieldArithmetic.div_eq]
    _ = γ * ((α.infinitesimal * β.real - α.real * β.infinitesimal) / (β.real * β.real)) := by
        -- both sides are zero where the divisor is
        by_cases zero : β.real = 0
        · simp [zero]
        · field_simp
          ring
    _ = _ := by
        simp only [List.map_cons, List.map_nil, hα, hβ, Operator.value_division,
          Literal.zipWith_scalar, Literal.tangent_scalar, Literal.dot_scalar,
          Dual.infinitesimal_div]

theorem propagates_cosine (moves : MoveAll Φ ρ D operands [.scalar]) :
    Propagates Φ ρ D .cosine operands := by
  rcases moves with _ | ⟨ha, _ | _⟩
  rename_i a
  intro gradient g G same hg
  cases same
  refine Recipe.Ensures.bind (ensures_apply .sine (.one ha.denotes) trivial fun sine hs => ?_)
  refine Recipe.Ensures.bind (ensures_apply .negation (.one hs) trivial fun slope hslope => ?_)
  refine Recipe.Ensures.bind
    (ensures_apply .multiplication (.two hslope hg) trivial fun x hx => ?_)
  refine ensures_contribute ha (by simp) hx ?_
  intro only hΦ
  rcases (hg.hasShape hΦ).exists_scalar with ⟨γ, rfl⟩
  rcases (ha.complete hΦ).exists_scalar with ⟨α, hα⟩
  calc carried ρ D [⟨a, x⟩] = -Arithmetic.sin α.real * γ * α.infinitesimal := by
        rw [carried_one, only hΦ, hα]
        simp only [Literal.tangent_scalar, Literal.realPart_scalar, Operator.value_multiplication,
          Operator.value_negation, Operator.value_sine, Literal.zipWith_scalar, Literal.map_scalar,
          Literal.dot_scalar, RingArithmetic.mul_eq, RingArithmetic.neg_eq]
    _ = γ * (-Arithmetic.sin α.real * α.infinitesimal) := by ring
    _ = _ := by
        simp only [List.map_cons, List.map_nil, hα, Operator.value_cosine, Literal.map_scalar,
          Literal.tangent_scalar, Literal.dot_scalar, Dual.infinitesimal_cos]

theorem propagates_sine (moves : MoveAll Φ ρ D operands [.scalar]) :
    Propagates Φ ρ D .sine operands := by
  rcases moves with _ | ⟨ha, _ | _⟩
  rename_i a
  intro gradient g G same hg
  cases same
  refine Recipe.Ensures.bind (ensures_apply .cosine (.one ha.denotes) trivial fun slope hs => ?_)
  refine Recipe.Ensures.bind (ensures_apply .multiplication (.two hs hg) trivial fun x hx => ?_)
  refine ensures_contribute ha (by simp) hx ?_
  intro only hΦ
  rcases (hg.hasShape hΦ).exists_scalar with ⟨γ, rfl⟩
  rcases (ha.complete hΦ).exists_scalar with ⟨α, hα⟩
  calc carried ρ D [⟨a, x⟩] = Arithmetic.cos α.real * γ * α.infinitesimal := by
        rw [carried_one, only hΦ, hα]
        simp only [Literal.tangent_scalar, Literal.realPart_scalar, Operator.value_multiplication,
          Operator.value_cosine, Literal.zipWith_scalar, Literal.map_scalar, Literal.dot_scalar,
          RingArithmetic.mul_eq]
    _ = γ * (Arithmetic.cos α.real * α.infinitesimal) := by ring
    _ = _ := by
        simp only [List.map_cons, List.map_nil, hα, Operator.value_sine, Literal.map_scalar,
          Literal.tangent_scalar, Literal.dot_scalar, Dual.infinitesimal_sin]

/-! ## Products -/

theorem propagates_scaling (h : s.isScalar = false)
    (moves : MoveAll Φ ρ D operands [.scalar, s]) : Propagates Φ ρ D (.scaling s h) operands := by
  rcases moves with _ | ⟨ha, _ | ⟨hb, _ | _⟩⟩
  rename_i a b
  intro gradient g G same hg
  cases same
  -- the scalar is sent the inner product with the vector, the vector the scaled gradient
  refine Recipe.Ensures.bind
    (ensures_apply (.innerProduct s h) (.two hb.denotes hg) trivial fun x hx => ?_)
  refine Recipe.Ensures.bind (ensures_contribute ha (by simp) hx fun left => ?_)
  refine Recipe.Ensures.bind
    (ensures_apply (.scaling s h) (.two ha.denotes hg) trivial fun y hy => ?_)
  refine ensures_contribute hb (by simp) hy ?_
  intro right hΦ
  have gradient : G.HasShape s := hg.hasShape hΦ
  have hB := hb.complete hΦ
  rcases (ha.complete hΦ).exists_scalar with ⟨α, hα⟩
  calc carried ρ D [⟨a, x⟩, ⟨b, y⟩]
      = (D b).realPart.dot G * α.infinitesimal + α.real * G.dot (D b).tangent := by
        rw [carried_two, left hΦ, right hΦ, hα, Operator.value_innerProduct,
          Operator.value_scaling, Literal.tangent_scalar, Literal.realPart_scalar,
          Literal.dot_scalar, Literal.component_scalar, Literal.scale_dot hB.tangent gradient]
    _ = G.dot ((D b).realPart.scale α.infinitesimal) + G.dot ((D b).tangent.scale α.real) := by
        rw [Literal.dot_scale gradient hB.realPart, Literal.dot_scale gradient hB.tangent,
          Literal.dot_comm hB.realPart gradient, mul_comm]
    _ = G.dot (.zipWith Arithmetic.add ((D b).realPart.scale α.infinitesimal)
          ((D b).tangent.scale α.real)) :=
        (Literal.dot_add gradient (hB.realPart.scale _) (hB.tangent.scale _)).symm
    _ = _ := by
        rw [← Literal.tangent_scale hB, List.map_cons, List.map_cons, List.map_nil,
          Operator.value_scaling, hα, Literal.component_scalar]

theorem propagates_innerProduct (h : s.isScalar = false)
    (moves : MoveAll Φ ρ D operands [s, s]) :
    Propagates Φ ρ D (.innerProduct s h) operands := by
  rcases moves with _ | ⟨ha, _ | ⟨hb, _ | _⟩⟩
  rename_i a b
  intro gradient g G same hg
  cases same
  -- each vector is sent the other, times the gradient
  refine Recipe.Ensures.bind
    (ensures_apply (.scaling s h) (.two hg hb.denotes) trivial fun x hx => ?_)
  refine Recipe.Ensures.bind (ensures_contribute ha (by simp) hx fun left => ?_)
  refine Recipe.Ensures.bind
    (ensures_apply (.scaling s h) (.two hg ha.denotes) trivial fun y hy => ?_)
  refine ensures_contribute hb (by simp) hy ?_
  intro right hΦ
  have hA := ha.complete hΦ
  have hB := hb.complete hΦ
  rcases (hg.hasShape hΦ).exists_scalar with ⟨γ, rfl⟩
  calc carried ρ D [⟨a, x⟩, ⟨b, y⟩]
      = γ * (D b).realPart.dot (D a).tangent + γ * (D a).realPart.dot (D b).tangent := by
        rw [carried_two, left hΦ, right hΦ, Operator.value_scaling, Operator.value_scaling,
          Literal.component_scalar, Literal.scale_dot hA.tangent hB.realPart,
          Literal.scale_dot hB.tangent hA.realPart]
    _ = γ * ((D a).tangent.dot (D b).realPart + (D a).realPart.dot (D b).tangent) := by
        rw [Literal.dot_comm hB.realPart hA.tangent, mul_add]
    _ = _ := by
        rw [← Literal.tangent_dot, List.map_cons, List.map_cons, List.map_nil,
          Operator.value_innerProduct, Literal.tangent_scalar, Literal.dot_scalar]

theorem propagates_matrixProduct (h : s.isMatrix = true)
    (moves : MoveAll Φ ρ D operands [s, s]) :
    Propagates Φ ρ D (.matrixProduct s h) operands := by
  rcases moves with _ | ⟨ha, _ | ⟨hb, _ | _⟩⟩
  rename_i a b
  intro gradient g G same hg
  cases same
  -- the left matrix is sent `G Bᵀ`, the right one `Aᵀ G`
  refine Recipe.Ensures.bind
    (ensures_apply (.transposition s h) (.one hb.denotes) trivial fun right hright => ?_)
  refine Recipe.Ensures.bind
    (ensures_apply (.matrixProduct s h) (.two hg hright) trivial fun x hx => ?_)
  refine Recipe.Ensures.bind (ensures_contribute ha (by simp) hx fun first => ?_)
  refine Recipe.Ensures.bind
    (ensures_apply (.transposition s h) (.one ha.denotes) trivial fun left hleft => ?_)
  refine Recipe.Ensures.bind
    (ensures_apply (.matrixProduct s h) (.two hleft hg) trivial fun y hy => ?_)
  refine ensures_contribute hb (by simp) hy ?_
  intro second hΦ
  have dims := Shape.hasDims_of_isMatrix h
  have gradient : G.HasShape s := hg.hasShape hΦ
  have hA := ha.complete hΦ
  have hB := hb.complete hΦ
  calc carried ρ D [⟨a, x⟩, ⟨b, y⟩]
      = (G.product (D b).realPart.transpose s).dot (D a).tangent +
          ((D a).realPart.transpose.product G s).dot (D b).tangent := by
        rw [carried_two, first hΦ, second hΦ]
        simp only [Operator.value_matrixProduct, Operator.value_transposition]
    _ = G.dot ((D a).tangent.product (D b).realPart s) +
          G.dot ((D a).realPart.product (D b).tangent s) := by
        rw [Literal.dot_product_left gradient hA.tangent hB.realPart dims,
          Literal.dot_product_right gradient hA.realPart hB.tangent dims dims]
    _ = G.dot (.zipWith Arithmetic.add ((D a).tangent.product (D b).realPart s)
          ((D a).realPart.product (D b).tangent s)) :=
        (Literal.dot_add gradient (Literal.hasShape_product _ _ _)
          (Literal.hasShape_product _ _ _)).symm
    _ = _ := by
        rw [← Literal.tangent_product, List.map_cons, List.map_cons, List.map_nil,
          Operator.value_matrixProduct]

theorem propagates_columnProduct {m v : Shape} (h : IsColumn m v)
    (moves : MoveAll Φ ρ D operands [m, v]) :
    Propagates Φ ρ D (.columnProduct m v h) operands := by
  rcases moves with _ | ⟨ha, _ | ⟨hb, _ | _⟩⟩
  rename_i a b
  intro gradient g G same hg
  cases same
  rcases h.dims with ⟨matrix, dims, column⟩
  -- the matrix is sent the outer product `g bᵀ`, the vector `Aᵀ g`
  refine Recipe.Ensures.bind
    (ensures_apply (.outerProduct m v h) (.two hg hb.denotes) trivial fun x hx => ?_)
  refine Recipe.Ensures.bind (ensures_contribute ha (by simp) hx fun first => ?_)
  refine Recipe.Ensures.bind
    (ensures_apply (.transposition m matrix) (.one ha.denotes) trivial fun left hleft => ?_)
  refine Recipe.Ensures.bind
    (ensures_apply (.columnProduct m v h) (.two hleft hg) trivial fun y hy => ?_)
  refine ensures_contribute hb (by simp) hy ?_
  intro second hΦ
  have gradient : G.HasShape v := hg.hasShape hΦ
  have hA := ha.complete hΦ
  have hB := hb.complete hΦ
  calc carried ρ D [⟨a, x⟩, ⟨b, y⟩]
      = (Literal.outer G (D b).realPart m).dot (D a).tangent +
          ((D a).realPart.transpose.product G v).dot (D b).tangent := by
        rw [carried_two, first hΦ, second hΦ]
        simp only [Operator.value_columnProduct, Operator.value_outerProduct,
          Operator.value_transposition]
    _ = G.dot ((D a).tangent.product (D b).realPart v) +
          G.dot ((D a).realPart.product (D b).tangent v) := by
        rw [Literal.dot_product_outer gradient hA.tangent hB.realPart dims column,
          Literal.dot_product_right gradient hA.realPart hB.tangent dims column]
    _ = G.dot (.zipWith Arithmetic.add ((D a).tangent.product (D b).realPart v)
          ((D a).realPart.product (D b).tangent v)) :=
        (Literal.dot_add gradient (Literal.hasShape_product _ _ _)
          (Literal.hasShape_product _ _ _)).symm
    _ = _ := by
        rw [← Literal.tangent_product, List.map_cons, List.map_cons, List.map_nil,
          Operator.value_columnProduct]

theorem propagates_outerProduct {m v : Shape} (h : IsColumn m v)
    (moves : MoveAll Φ ρ D operands [v, v]) :
    Propagates Φ ρ D (.outerProduct m v h) operands := by
  rcases moves with _ | ⟨ha, _ | ⟨hb, _ | _⟩⟩
  rename_i a b
  intro gradient g G same hg
  cases same
  rcases h.dims with ⟨matrix, dims, column⟩
  -- the left vector is sent `G b`, the right one `Gᵀ a`
  refine Recipe.Ensures.bind
    (ensures_apply (.columnProduct m v h) (.two hg hb.denotes) trivial fun x hx => ?_)
  refine Recipe.Ensures.bind (ensures_contribute ha (by simp) hx fun first => ?_)
  refine Recipe.Ensures.bind
    (ensures_apply (.transposition m matrix) (.one hg) trivial fun left hleft => ?_)
  refine Recipe.Ensures.bind
    (ensures_apply (.columnProduct m v h) (.two hleft ha.denotes) trivial fun y hy => ?_)
  refine ensures_contribute hb (by simp) hy ?_
  intro second hΦ
  have gradient : G.HasShape m := hg.hasShape hΦ
  have hA := ha.complete hΦ
  have hB := hb.complete hΦ
  calc carried ρ D [⟨a, x⟩, ⟨b, y⟩]
      = (G.product (D b).realPart v).dot (D a).tangent +
          (G.transpose.product (D a).realPart v).dot (D b).tangent := by
        rw [carried_two, first hΦ, second hΦ]
        simp only [Operator.value_columnProduct, Operator.value_transposition]
    _ = G.dot (.outer (D a).tangent (D b).realPart m) +
          G.dot (.outer (D a).realPart (D b).tangent m) := by
        rw [Literal.dot_outer_left gradient hA.tangent hB.realPart dims column,
          Literal.dot_outer_right gradient hA.realPart hB.tangent dims column]
    _ = G.dot (.zipWith Arithmetic.add (.outer (D a).tangent (D b).realPart m)
          (.outer (D a).realPart (D b).tangent m)) :=
        (Literal.dot_add gradient (Literal.hasShape_outer _ _ _)
          (Literal.hasShape_outer _ _ _)).symm
    _ = _ := by
        rw [← Literal.tangent_outer, List.map_cons, List.map_cons, List.map_nil,
          Operator.value_outerProduct]

theorem propagates_axisRotation {id : NodeId} {r : AxisRotation}
    (h : axisRotations[id]? = some r) (moves : MoveAll Φ ρ D operands [.scalar]) :
    Propagates Φ ρ D (.axisRotation id r h) operands := by
  rcases moves with _ | ⟨ha, _ | _⟩
  rename_i a
  intro gradient g G same hg
  cases same
  have member := List.mem_of_getElem? h
  have matrix := (AxisRotation.cells_at_rest r member).1
  have vector := Shape.isScalar_of_isMatrix matrix
  -- the slope of a rotation is the rotation times its generator
  have generator : Denotes Φ ρ (.constant id r.generator) r.shape r.generator :=
    .constant id (Literal.hasShape_ofFn _ _)
  refine Recipe.Ensures.bind
    (ensures_apply (.axisRotation id r h) (.one ha.denotes) trivial fun rotated hr => ?_)
  refine Recipe.Ensures.bind
    (ensures_apply (.matrixProduct r.shape matrix) (.two hr generator) trivial fun slope hs => ?_)
  refine Recipe.Ensures.bind
    (ensures_apply (.innerProduct r.shape vector) (.two hg hs) trivial fun x hx => ?_)
  refine ensures_contribute ha (by simp) hx ?_
  intro only hΦ
  have gradient : G.HasShape r.shape := hg.hasShape hΦ
  rcases (ha.complete hΦ).exists_scalar with ⟨α, hα⟩
  calc carried ρ D [⟨a, x⟩]
      = G.dot ((r.value α.real).product r.generator r.shape) * α.infinitesimal := by
        rw [carried_one, only hΦ, hα]
        simp only [Operator.value_innerProduct, Operator.value_matrixProduct,
          Operator.value_axisRotation, Literal.tangent_scalar, Literal.realPart_scalar,
          Literal.component_scalar, Literal.dot_scalar]
    _ = G.dot (((r.value α.real).product r.generator r.shape).scale α.infinitesimal) := by
        rw [Literal.dot_scale gradient (Literal.hasShape_product _ _ _), mul_comm]
    _ = _ := by
        rw [← AxisRotation.tangent_value member, List.map_cons, List.map_nil,
          Operator.value_axisRotation, hα, Literal.component_scalar]

/-! ## Operators over many scalars -/

/-- A component of the gradient goes to each of several scalar operands. -/
theorem ensures_contributeEach (vector : s.isScalar = false) (hg : Denotes Φ ρ g s G)
    {places : List (Node K × Nat)}
    (h : ∀ p ∈ places, p.1 ∈ operands ∧ Moves Φ ρ D p.1 .scalar ∧ p.2 < s.size) :
    (Recipe.each (fun (operand, position) => do
        let part ← Recipe.select g position
        contribute operand part) places).Ensures (propagating Φ ρ operands) fun asked _ =>
      Φ → carried ρ D asked =
        (places.map fun p => G.component p.2 * (D p.1).tangent.component 0).sum := by
  induction places with
  | nil => exact fun _ => rfl
  | cons p rest ih =>
      rcases h p List.mem_cons_self with ⟨mem, moves, lt⟩
      -- the component is selected and contributed, and then come the other places
      refine Recipe.Ensures.bind (Recipe.Ensures.bind ?_)
      refine ensures_select vector lt hg trivial ?_
      intro part hpart
      refine ensures_contribute moves mem hpart ?_
      intro first
      refine Recipe.Ensures.bind ((ih fun q hq => h q (List.mem_cons_of_mem p hq)).mono ?_)
      intro asked _ others hΦ
      have component : carriedBy ρ D ⟨p.1, part⟩ =
          G.component p.2 * (D p.1).tangent.component 0 := by
        rw [first hΦ, Literal.dot_of_scalar (Literal.hasShape_scalar _) (moves.complete hΦ).tangent,
          Literal.component_scalar]
      calc carried ρ D ([] ++ [⟨p.1, part⟩] ++ (asked ++ []))
          = carriedBy ρ D ⟨p.1, part⟩ + carried ρ D asked := by simp [carried]
        _ = _ := by rw [component, others hΦ, List.map_cons, List.sum_cons]

theorem propagates_constructor (h : s.isScalar = false)
    (moves : MoveAll Φ ρ D operands (List.replicate s.size .scalar)) :
    Propagates Φ ρ D (.constructor s h) operands := by
  intro gradient g G same hg
  cases same
  have length : operands.length = s.size := by rw [moves.length, List.length_replicate]
  -- operand and component are at the same position
  have places : ∀ p ∈ operands.zipIdx,
      p.1 ∈ operands ∧ Moves Φ ρ D p.1 .scalar ∧ p.2 < s.size := by
    rintro ⟨n, i⟩ hp
    rcases List.mem_zipIdx' hp with ⟨lt, same⟩
    have mem : n ∈ operands := same ▸ List.getElem_mem lt
    exact ⟨mem, moves.forall n mem, length ▸ lt⟩
  refine Recipe.Ensures.bind ((ensures_contributeEach h hg places).mono ?_)
  intro asked _ sum hΦ
  have gradient : G.HasShape s := hg.hasShape hΦ
  have terms : (operands.zipIdx.map fun p => G.component p.2 * (D p.1).tangent.component 0) =
      List.ofFn fun i : Fin s.size =>
        G.component i * scalarAt (operands.map fun n => (D n).tangent) i := by
    refine List.ext_getElem (by simp [length]) ?_
    intro i hi hi'
    have lt : i < operands.length := by simpa using hi
    simp [scalarAt, List.getD_eq_getElem?_getD, lt]
  calc carried ρ D (asked ++ []) = carried ρ D asked := by rw [List.append_nil]
    _ = ∑ i : Fin s.size, G.component i * scalarAt (operands.map fun n => (D n).tangent) i := by
        rw [sum hΦ, terms, List.sum_ofFn]
    _ = G.dot (.ofFn s (scalarAt (operands.map fun n => (D n).tangent))) := by
        rw [Literal.dot_eq_sum gradient (Literal.hasShape_ofFn s _)]
        exact Finset.sum_congr rfl fun i _ => by rw [Literal.component_ofFn i.isLt]
    _ = _ := by
        rw [Operator.value_constructor, tangent_constructor, List.map_map]
        rfl

omit [Numeral K] [Field K] [FieldArithmetic K] in
/-- Which scalar stands at a position. -/
theorem filledComponent_three (values : List (Literal K)) (rest : Nat → K) (i j k p : Nat) :
    Operator.filledComponent [i, j, k] values rest p =
      if p = i then scalarAt values 0
      else if p = j then scalarAt values 1
      else if p = k then scalarAt values 2
      else rest p := by
  rw [Operator.filledComponent, operandPlace?]
  by_cases first : p = i
  · simp [List.idxOf?_cons, first]
  by_cases second : p = j
  · have differs : i ≠ j := fun same => first (second.trans same.symm)
    simp [List.idxOf?_cons, second, differs, differs.symm]
  by_cases third : p = k
  · have differs : i ≠ k := fun same => first (third.trans same.symm)
    have differs' : j ≠ k := fun same => second (third.trans same.symm)
    simp [List.idxOf?_cons, third, differs, differs', differs.symm, differs'.symm]
  · simp [List.idxOf?_cons, first, second, third, Ne.symm first, Ne.symm second, Ne.symm third]

omit [Numeral K] in
/-- The components at the places of the three scalars are theirs, and the others are zero. -/
theorem dot_filledComponent (hG : G.HasShape .mat44) (values : List (Literal K))
    {i j k : Fin 16} (ij : i ≠ j) (ik : i ≠ k) (jk : j ≠ k) :
    G.dot (.ofFn .mat44 (Operator.filledComponent [i, j, k] values fun _ => Arithmetic.zero)) =
      G.component i * scalarAt values 0 + G.component j * scalarAt values 1 +
        G.component k * scalarAt values 2 := by
  have split (p : Fin 16) :
      Operator.filledComponent [i, j, k] values (fun _ => Arithmetic.zero) p =
        (if p = i then scalarAt values 0 else 0) + (if p = j then scalarAt values 1 else 0) +
          (if p = k then scalarAt values 2 else 0) := by
    rw [filledComponent_three]
    simp only [Fin.val_inj]
    by_cases first : p = i
    · simp [first, ij, ik]
    by_cases second : p = j
    · simp [second, ij.symm, jk]
    · simp [first, second]
  calc G.dot (.ofFn .mat44 (Operator.filledComponent [i, j, k] values fun _ => Arithmetic.zero))
      = ∑ p : Fin 16, G.component p *
          Operator.filledComponent [i, j, k] values (fun _ => Arithmetic.zero) p := by
        rw [Literal.dot_eq_sum hG (Literal.hasShape_ofFn .mat44 _)]
        exact Finset.sum_congr rfl fun p _ => by rw [Literal.component_ofFn p.isLt]
    _ = _ := by
        simp only [split, mul_add, Finset.sum_add_distrib, mul_ite, mul_zero,
          Finset.sum_ite_eq', Finset.mem_univ, if_true]

/-- The components of the gradient at three places go to the three scalars there. -/
theorem propagates_filledIdentity {i j k : Fin 16} (ij : i ≠ j) (ik : i ≠ k) (jk : j ≠ k)
    {optimize : List (Node K) → Rule K (Option (Node K))} {name : String}
    (definition : (o.definition : Definition K) = filledIdentity name [i, j, k] optimize)
    (result : o.signature.result = .mat44)
    (value : ∀ values : List (Literal (Dual K)), o.value values = Operator.filled [i, j, k] values)
    (moves : MoveAll Φ ρ D operands [.scalar, .scalar, .scalar]) :
    Propagates Φ ρ D o operands := by
  intro gradient g G same hg
  rw [definition] at same
  rw [result] at hg
  cases same
  rcases moves with _ | ⟨ha, _ | ⟨hb, _ | ⟨hc, _ | _⟩⟩⟩
  rename_i a b c
  -- the places of the three scalars are components of the matrix
  have places : ∀ p ∈ [(a, (i : Nat)), (b, (j : Nat)), (c, (k : Nat))],
      p.1 ∈ [a, b, c] ∧ Moves Φ ρ D p.1 .scalar ∧ p.2 < Shape.mat44.size := by
    simp only [List.forall_mem_cons]
    exact ⟨⟨by simp, ha, i.isLt⟩, ⟨by simp, hb, j.isLt⟩, ⟨by simp, hc, k.isLt⟩, by simp⟩
  refine Recipe.Ensures.bind ((ensures_contributeEach rfl hg places).mono ?_)
  intro asked _ sum hΦ
  calc carried ρ D (asked ++ []) = carried ρ D asked := by rw [List.append_nil]
    _ = G.component i * (D a).tangent.component 0 + G.component j * (D b).tangent.component 0 +
          G.component k * (D c).tangent.component 0 := by
        rw [sum hΦ]
        simp [add_assoc]
    _ = G.dot (.ofFn .mat44 (Operator.filledComponent [i, j, k]
          [(D a).tangent, (D b).tangent, (D c).tangent] fun _ => Arithmetic.zero)) :=
        (dot_filledComponent (hg.hasShape hΦ) [(D a).tangent, (D b).tangent, (D c).tangent]
          ij ik jk).symm
    _ = _ := by
        rw [value, tangent_filled]
        rfl

theorem propagates_shift (moves : MoveAll Φ ρ D operands [.scalar, .scalar, .scalar]) :
    Propagates Φ ρ D .shift operands :=
  propagates_filledIdentity (i := 12) (j := 13) (k := 14) (by decide) (by decide) (by decide) rfl rfl
    (fun _ => Operator.value_shift _) moves

theorem propagates_axisScaling (moves : MoveAll Φ ρ D operands [.scalar, .scalar, .scalar]) :
    Propagates Φ ρ D .axisScaling operands :=
  propagates_filledIdentity (i := 0) (j := 5) (k := 10) (by decide) (by decide) (by decide) rfl rfl
    (fun _ => Operator.value_axisScaling _) moves

/-! ## All operators -/

omit [Field K] [FieldArithmetic K] in
theorem Operator.gradient_isSome (h : o.IsDifferentiable) :
    (o.definition : Definition K).hooks.gradient.isSome = true := by
  cases o with
  | axisAngleRotation => exact absurd rfl h.1
  | fromHomogeneous => exact absurd rfl h.2
  | _ => rfl

/-- Every `gradient` hook there is is the adjoint of differentiation. -/
theorem propagates (o : Operator) (moves : MoveAll Φ ρ D operands o.signature.operands) :
    Propagates Φ ρ D o operands := by
  cases o with
  | addition s h => exact propagates_addition h moves
  | subtraction s h => exact propagates_subtraction h moves
  | negation => exact propagates_negation moves
  | multiplication => exact propagates_multiplication moves
  | division => exact propagates_division moves
  | cosine => exact propagates_cosine moves
  | sine => exact propagates_sine moves
  | scaling s h => exact propagates_scaling h moves
  | innerProduct s h => exact propagates_innerProduct h moves
  | constructor s h => exact propagates_constructor h moves
  | selector s h i lt => exact propagates_selector h lt moves
  | transposition s h => exact propagates_transposition h moves
  | matrixProduct s h => exact propagates_matrixProduct h moves
  | columnProduct m v h => exact propagates_columnProduct h moves
  | outerProduct m v h => exact propagates_outerProduct h moves
  | axisRotation id r h => exact propagates_axisRotation h moves
  | shift => exact propagates_shift moves
  | axisScaling => exact propagates_axisScaling moves
  -- these have no hook
  | axisAngleRotation | fromHomogeneous => exact nofun

end

end Standard

end SymbolicLinalg
