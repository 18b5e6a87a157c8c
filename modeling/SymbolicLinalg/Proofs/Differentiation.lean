import SymbolicLinalg.Proofs.Assembly
import SymbolicLinalg.Proofs.Tangent

/-!
# Differentiation — what the `deriv` hooks answer

`D` reads nodes in dual numbers.  If every request of a hook for the derivative of an operand is
answered with a node for the tangent of the operand, then the hook answers with a node for the
tangent of the application, and it has asked for every operand.
-/

namespace SymbolicLinalg

namespace Standard

variable {K : Type} [Arithmetic K] [Numeral K] {Φ : Prop} {ρ : Assignment K}
  {D : Node K → Literal (Dual K)} {o : Operator} {operands : List (Node K)} {a b : Node K}
  {s t : Shape}

/-! ## Operators with a derivative -/

namespace Operator

/-- The operators that can be differentiated. -/
def IsDifferentiable (o : Operator) : Prop :=
  o ≠ .axisAngleRotation ∧ o ≠ .fromHomogeneous

theorem deriv_eq_none (h : ¬ o.IsDifferentiable) :
    (o.definition : Definition K).hooks.deriv = none := by
  cases o with
  | axisAngleRotation | fromHomogeneous => rfl
  | _ => exact absurd ⟨nofun, nofun⟩ h

theorem deriv_isSome (h : o.IsDifferentiable) :
    (o.definition : Definition K).hooks.deriv.isSome = true := by
  cases o with
  | axisAngleRotation => exact absurd rfl h.1
  | fromHomogeneous => exact absurd rfl h.2
  | _ => rfl

end Operator

/-! ## Nodes that move -/

/-- A node of a shape whose value is the real part of its dual value. -/
structure Moves (Φ : Prop) (ρ : Assignment K) (D : Node K → Literal (Dual K)) (n : Node K)
    (s : Shape) : Prop where
  denotes : Denotes Φ ρ n s (D n).realPart
  complete : Φ → (D n).HasShape s

inductive MoveAll (Φ : Prop) (ρ : Assignment K) (D : Node K → Literal (Dual K)) :
    List (Node K) → List Shape → Prop where
  | nil : MoveAll Φ ρ D [] []
  | cons {n : Node K} {s : Shape} {ns : List (Node K)} {ss : List Shape} :
      Moves Φ ρ D n s → MoveAll Φ ρ D ns ss → MoveAll Φ ρ D (n :: ns) (s :: ss)

theorem MoveAll.of_forall (h : ∀ n ∈ operands, Moves Φ ρ D n n.shape) :
    MoveAll Φ ρ D operands (operands.map Node.shape) := by
  induction operands with
  | nil => exact .nil
  | cons n rest ih =>
      exact .cons (h n List.mem_cons_self) (ih fun m hm => h m (List.mem_cons_of_mem n hm))

theorem MoveAll.length {ns : List (Node K)} {ss : List Shape} (h : MoveAll Φ ρ D ns ss) :
    ns.length = ss.length := by
  induction h with
  | nil => rfl
  | cons _ _ ih => rw [List.length_cons, List.length_cons, ih]

theorem MoveAll.forall {n : Nat} (h : MoveAll Φ ρ D operands (List.replicate n s)) :
    ∀ m ∈ operands, Moves Φ ρ D m s := by
  induction operands generalizing n with
  | nil => exact fun m hm => absurd hm List.not_mem_nil
  | cons m rest ih =>
      cases n with
      | zero => cases h
      | succ n =>
          cases h with
          | cons head tail => exact List.forall_mem_cons.2 ⟨head, ih tail⟩

/-- A request for the derivative of an operand is answered with a node for its tangent. -/
def answering (Φ : Prop) (ρ : Assignment K) (D : Node K → Literal (Dual K))
    (operands : List (Node K)) : Recipe.Terms (Node K) (Node K) where
  grant r p := r ∈ operands ∧ ∀ m, Denotes Φ ρ m r.shape (D r).tangent → p m
  mono imp h := ⟨h.1, fun m hm => imp m (h.2 m hm)⟩

/-- The terms on which a derivative is taken. -/
abbrev differentiating (Φ : Prop) (ρ : Assignment K) (D : Node K → Literal (Dual K))
    (operands : List (Node K)) : Recipe.Contract K (Node K) (Node K) :=
  ⟨building .all Φ ρ, answering Φ ρ D operands⟩

theorem ensures_derive {post : List (Node K) → Node K → Prop} (ha : Moves Φ ρ D a s)
    (mem : a ∈ operands) (next : ∀ da, Denotes Φ ρ da s (D a).tangent → post [a] da) :
    (derive a).Ensures (differentiating Φ ρ D operands) post :=
  ⟨mem, fun m hm => next m (ha.denotes.shape ▸ hm)⟩

/-- The hook asks for the derivatives of all operands and answers with the tangent of the
application. -/
def Differentiates (Φ : Prop) (ρ : Assignment K) (D : Node K → Literal (Dual K)) (o : Operator)
    (operands : List (Node K)) : Prop :=
  ∀ deriv wrt, (o.definition : Definition K).hooks.deriv = some deriv →
    (deriv wrt operands).Ensures (differentiating Φ ρ D operands) fun asked m =>
      operands ⊆ asked ∧ Denotes Φ ρ m o.signature.result (o.value (operands.map D)).tangent

/-! ## Linear operators -/

theorem differentiates_addition (h : s ≠ .genericScalar)
    (moves : MoveAll Φ ρ D operands [s, s]) : Differentiates Φ ρ D (.addition s h) operands := by
  rcases moves with _ | ⟨ha, _ | ⟨hb, _ | _⟩⟩
  rename_i a b
  intro deriv wrt same
  cases same
  refine Recipe.Ensures.bind (ensures_derive ha (by simp) fun da hda => ?_)
  refine Recipe.Ensures.bind (ensures_derive hb (by simp) fun db hdb => ?_)
  refine ensures_apply (.addition s h) (.two hda hdb) trivial fun n hn => ⟨by simp, ?_⟩
  refine hn.of_eq fun _ => ?_
  simp only [List.map_cons, List.map_nil, Operator.value_addition, Literal.tangent_add]

theorem differentiates_subtraction (h : s ≠ .genericScalar)
    (moves : MoveAll Φ ρ D operands [s, s]) :
    Differentiates Φ ρ D (.subtraction s h) operands := by
  rcases moves with _ | ⟨ha, _ | ⟨hb, _ | _⟩⟩
  rename_i a b
  intro deriv wrt same
  cases same
  refine Recipe.Ensures.bind (ensures_derive ha (by simp) fun da hda => ?_)
  refine Recipe.Ensures.bind (ensures_derive hb (by simp) fun db hdb => ?_)
  refine ensures_apply (.subtraction s h) (.two hda hdb) trivial fun n hn => ⟨by simp, ?_⟩
  refine hn.of_eq fun _ => ?_
  simp only [List.map_cons, List.map_nil, Operator.value_subtraction, Literal.tangent_sub]

theorem differentiates_negation (moves : MoveAll Φ ρ D operands [.scalar]) :
    Differentiates Φ ρ D .negation operands := by
  rcases moves with _ | ⟨ha, _ | _⟩
  intro deriv wrt same
  cases same
  refine Recipe.Ensures.bind (ensures_derive ha (by simp) fun da hda => ?_)
  refine ensures_apply .negation (.one hda) trivial fun n hn => ⟨by simp, ?_⟩
  refine hn.of_eq fun _ => ?_
  simp only [List.map_cons, List.map_nil, Operator.value_negation, Literal.tangent_neg]

theorem differentiates_transposition (h : s.isMatrix = true) (moves : MoveAll Φ ρ D operands [s]) :
    Differentiates Φ ρ D (.transposition s h) operands := by
  rcases moves with _ | ⟨ha, _ | _⟩
  intro deriv wrt same
  cases same
  refine Recipe.Ensures.bind (ensures_derive ha (by simp) fun da hda => ?_)
  refine ensures_apply (.transposition s h) (.one hda) trivial fun n hn => ⟨by simp, ?_⟩
  refine hn.of_eq fun _ => ?_
  simp only [List.map_cons, List.map_nil, Operator.value_transposition, Literal.tangent_transpose]

theorem differentiates_selector (h : s.isScalar = false) {i : Nat} (lt : i < s.size)
    (moves : MoveAll Φ ρ D operands [s]) :
    Differentiates Φ ρ D (.selector s h i lt) operands := by
  rcases moves with _ | ⟨ha, _ | _⟩
  intro deriv wrt same
  cases same
  refine Recipe.Ensures.bind (ensures_derive ha (by simp) fun da hda => ?_)
  refine ensures_select h lt hda trivial fun n hn => ⟨by simp, hn.of_eq fun _ => ?_⟩
  simp only [List.map_cons, List.map_nil, Operator.value_selector, Literal.tangent_scalar,
    Literal.component_tangent]

/-! ## Operators over many scalars -/

theorem ensures_deriveEach {ns : List (Node K)} (moves : ∀ n ∈ ns, Moves Φ ρ D n .scalar)
    (sub : ns ⊆ operands) :
    (Recipe.each derive ns).Ensures (differentiating Φ ρ D operands) fun asked ds =>
      asked = ns ∧ DenoteAll Φ ρ ds (List.replicate ns.length .scalar)
        (ns.map fun n => (D n).tangent) := by
  refine (ensures_each (R := fun n => [n]) (V := fun n => (D n).tangent) fun n hn => ?_).mono
    fun asked ds h => ⟨h.1.trans (List.flatMap_singleton' ns), h.2⟩
  exact ensures_derive (moves n hn) (sub hn) fun da hda => ⟨rfl, hda⟩

theorem differentiates_constructor (h : s.isScalar = false)
    (moves : MoveAll Φ ρ D operands (List.replicate s.size .scalar)) :
    Differentiates Φ ρ D (.constructor s h) operands := by
  intro deriv wrt same
  cases same
  have length : operands.length = s.size := by rw [moves.length, List.length_replicate]
  -- the derivatives of the operands are put together
  refine Recipe.Ensures.bind ((ensures_deriveEach moves.forall (List.Subset.refl _)).mono ?_)
  intro asked ds answered
  rcases answered with ⟨rfl, hds⟩
  rw [length] at hds
  refine ensures_apply (.constructor s h) hds trivial fun n hn => ⟨by simp, ?_⟩
  refine hn.of_eq fun _ => ?_
  rw [Operator.value_constructor, Operator.value_constructor, tangent_constructor, List.map_map]
  rfl

/-- The derivatives of the three scalars take their places in a matrix that is zero elsewhere. -/
theorem differentiates_filledIdentity {positions : List Nat}
    {optimize : List (Node K) → Rule K (Option (Node K))} {name : String}
    (definition : (o.definition : Definition K) = filledIdentity name positions optimize)
    (result : o.signature.result = .mat44)
    (value : ∀ values : List (Literal (Dual K)), o.value values = Operator.filled positions values)
    (three : positions.length = 3)
    (moves : MoveAll Φ ρ D operands [.scalar, .scalar, .scalar]) :
    Differentiates Φ ρ D o operands := by
  intro deriv wrt same
  rw [definition] at same
  cases same
  have length : operands.length = positions.length := by rw [moves.length, three]; rfl
  have scalars : MoveAll Φ ρ D operands (List.replicate 3 .scalar) := moves
  refine Recipe.Ensures.bind ((ensures_deriveEach scalars.forall (List.Subset.refl _)).mono ?_)
  intro asked ds answered
  rcases answered with ⟨rfl, hds⟩
  rw [length] at hds
  refine Recipe.Ensures.bind ((ensures_fillIn hds _ _).mono ?_)
  intro asked components answered
  rcases answered with ⟨rfl, hcomponents⟩
  rw [List.length_range] at hcomponents
  refine ensures_assemble rfl hcomponents trivial fun n hn => ⟨by simp, ?_⟩
  rw [result]
  refine hn.of_eq fun _ => ?_
  rw [value, tangent_filled, List.map_map]
  rfl

theorem differentiates_shift (moves : MoveAll Φ ρ D operands [.scalar, .scalar, .scalar]) :
    Differentiates Φ ρ D .shift operands :=
  differentiates_filledIdentity rfl rfl (fun _ => Operator.value_shift _) rfl moves

theorem differentiates_axisScaling (moves : MoveAll Φ ρ D operands [.scalar, .scalar, .scalar]) :
    Differentiates Φ ρ D .axisScaling operands :=
  differentiates_filledIdentity rfl rfl (fun _ => Operator.value_axisScaling _) rfl moves

/-! ## Quotients and angles -/

theorem differentiates_division (moves : MoveAll Φ ρ D operands [.scalar, .scalar]) :
    Differentiates Φ ρ D .division operands := by
  rcases moves with _ | ⟨ha, _ | ⟨hb, _ | _⟩⟩
  rename_i a b
  intro deriv wrt same
  cases same
  -- `(a' * b - a * b') / (b * b)`
  refine Recipe.Ensures.bind (ensures_derive ha (by simp) fun da hda => ?_)
  refine Recipe.Ensures.bind (ensures_derive hb (by simp) fun db hdb => ?_)
  refine Recipe.Ensures.bind
    (ensures_apply .multiplication (.two hda hb.denotes) trivial fun l hl => ?_)
  refine Recipe.Ensures.bind
    (ensures_apply .multiplication (.two ha.denotes hdb) trivial fun r hr => ?_)
  refine Recipe.Ensures.bind
    (ensures_apply (.subtraction .scalar nofun) (.two hl hr) trivial fun top htop => ?_)
  refine Recipe.Ensures.bind
    (ensures_apply .multiplication (.two hb.denotes hb.denotes) trivial fun bottom hbottom => ?_)
  refine ensures_apply .division (.two htop hbottom) trivial fun n hn => ⟨by simp, ?_⟩
  refine hn.of_eq ?_
  intro hΦ
  simp only [List.map_cons, List.map_nil, Operator.value_division, Operator.value_subtraction,
    Operator.value_multiplication]
  rw [Literal.tangent_div (ha.complete hΦ) (hb.complete hΦ)]

theorem differentiates_cosine (moves : MoveAll Φ ρ D operands [.scalar]) :
    Differentiates Φ ρ D .cosine operands := by
  rcases moves with _ | ⟨ha, _ | _⟩
  rename_i a
  intro deriv wrt same
  cases same
  -- `-sin a * a'`
  refine Recipe.Ensures.bind (ensures_derive ha (by simp) fun da hda => ?_)
  refine Recipe.Ensures.bind (ensures_apply .sine (.one ha.denotes) trivial fun sine hs => ?_)
  refine Recipe.Ensures.bind (ensures_apply .negation (.one hs) trivial fun slope hslope => ?_)
  refine ensures_apply .multiplication (.two hslope hda) trivial fun n hn => ⟨by simp, ?_⟩
  refine hn.of_eq ?_
  intro hΦ
  simp only [List.map_cons, List.map_nil, Operator.value_multiplication, Operator.value_negation,
    Operator.value_sine, Operator.value_cosine]
  rw [Literal.tangent_cos (ha.complete hΦ)]

theorem differentiates_sine (moves : MoveAll Φ ρ D operands [.scalar]) :
    Differentiates Φ ρ D .sine operands := by
  rcases moves with _ | ⟨ha, _ | _⟩
  rename_i a
  intro deriv wrt same
  cases same
  -- `cos a * a'`
  refine Recipe.Ensures.bind (ensures_derive ha (by simp) fun da hda => ?_)
  refine Recipe.Ensures.bind (ensures_apply .cosine (.one ha.denotes) trivial fun slope hs => ?_)
  refine ensures_apply .multiplication (.two hs hda) trivial fun n hn => ⟨by simp, ?_⟩
  refine hn.of_eq ?_
  intro hΦ
  simp only [List.map_cons, List.map_nil, Operator.value_multiplication, Operator.value_cosine,
    Operator.value_sine]
  rw [Literal.tangent_sin (ha.complete hΦ)]

theorem differentiates_outerProduct {m v : Shape} (h : IsColumn m v)
    (moves : MoveAll Φ ρ D operands [v, v]) :
    Differentiates Φ ρ D (.outerProduct m v h) operands := by
  rcases moves with _ | ⟨ha, _ | ⟨hb, _ | _⟩⟩
  rename_i a b
  intro deriv wrt same
  cases same
  -- `outer a' b + outer a b'`
  refine Recipe.Ensures.bind (ensures_derive ha (by simp) fun da hda => ?_)
  refine Recipe.Ensures.bind (ensures_derive hb (by simp) fun db hdb => ?_)
  refine Recipe.Ensures.bind
    (ensures_apply (.outerProduct m v h) (.two hda hb.denotes) trivial fun l hl => ?_)
  refine Recipe.Ensures.bind
    (ensures_apply (.outerProduct m v h) (.two ha.denotes hdb) trivial fun r hr => ?_)
  refine ensures_apply (.addition m h.matrix_ne) (.two hl hr) trivial fun n hn => ⟨by simp, ?_⟩
  refine hn.of_eq fun _ => ?_
  simp only [List.map_cons, List.map_nil, Operator.value_addition, Operator.value_outerProduct,
    Literal.tangent_outer]

/-! ## Products -/

section

variable [Field K] [FieldArithmetic K]

/-- The products whose right factor is differentiated first. -/
theorem differentiates_product
    (deriv : (o.definition : Definition K).hooks.deriv = some fun _ => onTwo "*" productRule)
    (name : o.signature.name = "*") (shapes : o.signature.operands = [s, t])
    (known : o.signature.result ≠ .genericScalar) (ha : Moves Φ ρ D a s) (hb : Moves Φ ρ D b t)
    (rule : Φ → (o.value [D a, D b]).tangent =
      .zipWith Arithmetic.add (o.value [(D a).tangent, (D b).realPart])
        (o.value [(D a).realPart, (D b).tangent])) :
    Differentiates Φ ρ D o [a, b] := by
  intro hook wrt same
  obtain rfl : hook = fun _ => onTwo "*" productRule := Option.some.inj (same.symm.trans deriv)
  have product {x y : Node K} {X Y : Literal K} (hx : Denotes Φ ρ x s X) (hy : Denotes Φ ρ y t Y) :
      DenoteAll Φ ρ [x, y] o.signature.operands [X, Y] := by
    rw [shapes]
    exact .two hx hy
  -- `a * b' + a' * b`, where the tangent has the terms the other way round
  refine Recipe.Ensures.bind (ensures_derive ha (by simp) fun da hda => ?_)
  refine Recipe.Ensures.bind (ensures_derive hb (by simp) fun db hdb => ?_)
  rw [Recipe.mul, Recipe.mul, ← name]
  refine Recipe.Ensures.bind (ensures_apply o (product ha.denotes hdb) trivial fun l hl => ?_)
  refine Recipe.Ensures.bind (ensures_apply o (product hda hb.denotes) trivial fun r hr => ?_)
  refine ensures_apply (.addition _ known) (.two hl hr) trivial fun n hn => ⟨by simp, ?_⟩
  refine hn.of_eq ?_
  intro hΦ
  have left := hl.hasShape hΦ
  have right := hr.hasShape hΦ
  rw [List.map_cons, List.map_cons, List.map_nil, rule hΦ, Operator.value_addition,
    Literal.add_comm left right]

theorem differentiates_multiplication (moves : MoveAll Φ ρ D operands [.scalar, .scalar]) :
    Differentiates Φ ρ D .multiplication operands := by
  rcases moves with _ | ⟨ha, _ | ⟨hb, _ | _⟩⟩
  refine differentiates_product rfl rfl rfl nofun ha hb ?_
  intro hΦ
  simp only [Operator.value_multiplication]
  exact Literal.tangent_mul (ha.complete hΦ) (hb.complete hΦ)

theorem differentiates_scaling (h : s.isScalar = false)
    (moves : MoveAll Φ ρ D operands [.scalar, s]) :
    Differentiates Φ ρ D (.scaling s h) operands := by
  rcases moves with _ | ⟨ha, _ | ⟨hb, _ | _⟩⟩
  refine differentiates_product rfl rfl rfl (Shape.ne_genericScalar h) ha hb ?_
  intro hΦ
  simp only [Operator.value_scaling, Literal.component_tangent, Literal.component_realPart]
  exact Literal.tangent_scale (hb.complete hΦ) _

theorem differentiates_matrixProduct (h : s.isMatrix = true)
    (moves : MoveAll Φ ρ D operands [s, s]) :
    Differentiates Φ ρ D (.matrixProduct s h) operands := by
  rcases moves with _ | ⟨ha, _ | ⟨hb, _ | _⟩⟩
  have known := Shape.ne_genericScalar (Shape.isScalar_of_isMatrix h)
  refine differentiates_product rfl rfl rfl known ha hb fun _ => ?_
  simp only [Operator.value_matrixProduct]
  exact Literal.tangent_product _ _ s

theorem differentiates_columnProduct {m v : Shape} (h : IsColumn m v)
    (moves : MoveAll Φ ρ D operands [m, v]) :
    Differentiates Φ ρ D (.columnProduct m v h) operands := by
  rcases moves with _ | ⟨ha, _ | ⟨hb, _ | _⟩⟩
  have known : v ≠ .genericScalar := h.column_ne
  refine differentiates_product rfl rfl rfl known ha hb fun _ => ?_
  simp only [Operator.value_columnProduct]
  exact Literal.tangent_product _ _ v

theorem differentiates_innerProduct (h : s.isScalar = false)
    (moves : MoveAll Φ ρ D operands [s, s]) :
    Differentiates Φ ρ D (.innerProduct s h) operands := by
  rcases moves with _ | ⟨ha, _ | ⟨hb, _ | _⟩⟩
  rename_i a b
  intro deriv wrt same
  cases same
  refine Recipe.Ensures.bind (ensures_derive ha (by simp) fun da hda => ?_)
  refine Recipe.Ensures.bind (ensures_derive hb (by simp) fun db hdb => ?_)
  refine Recipe.Ensures.bind
    (ensures_apply (.innerProduct s h) (.two hda hb.denotes) trivial fun l hl => ?_)
  refine Recipe.Ensures.bind
    (ensures_apply (.innerProduct s h) (.two ha.denotes hdb) trivial fun r hr => ?_)
  refine ensures_apply (.addition .scalar nofun) (.two hl hr) trivial fun n hn => ⟨by simp, ?_⟩
  refine hn.of_eq fun _ => ?_
  simp only [List.map_cons, List.map_nil, Operator.value_addition, Operator.value_innerProduct,
    Literal.tangent_scalar, Literal.tangent_dot]
  simp [Literal.zipWith, Literal.scalar]

theorem differentiates_axisRotation {id : NodeId} {r : AxisRotation}
    (h : axisRotations[id]? = some r) (moves : MoveAll Φ ρ D operands [.scalar]) :
    Differentiates Φ ρ D (.axisRotation id r h) operands := by
  rcases moves with _ | ⟨ha, _ | _⟩
  rename_i a
  intro deriv wrt same
  cases same
  have member := List.mem_of_getElem? h
  have matrix := (AxisRotation.cells_at_rest r member).1
  have vector := Shape.isScalar_of_isMatrix matrix
  -- the derivative is the rotation times its generator, scaled by that of the angle
  have generator : Denotes Φ ρ (.constant id r.generator) r.shape r.generator :=
    .constant id (Literal.hasShape_ofFn _ _)
  refine Recipe.Ensures.bind (ensures_derive ha (by simp) fun da hda => ?_)
  refine Recipe.Ensures.bind
    (ensures_apply (.axisRotation id r h) (.one ha.denotes) trivial fun rotated hr => ?_)
  refine Recipe.Ensures.bind
    (ensures_apply (.matrixProduct r.shape matrix) (.two hr generator) trivial fun slope hs => ?_)
  refine ensures_apply (.scaling r.shape vector) (.two hda hs) trivial fun n hn => ⟨by simp, ?_⟩
  refine hn.of_eq fun _ => ?_
  simp only [List.map_cons, List.map_nil, Operator.value_scaling, Operator.value_matrixProduct,
    Operator.value_axisRotation, AxisRotation.tangent_value member, Literal.component_tangent,
    Literal.component_realPart]

/-! ## All operators -/

/-- Every `deriv` hook there is answers with the tangent of the application. -/
theorem differentiates (o : Operator) (moves : MoveAll Φ ρ D operands o.signature.operands) :
    Differentiates Φ ρ D o operands := by
  cases o with
  | addition s h => exact differentiates_addition h moves
  | subtraction s h => exact differentiates_subtraction h moves
  | negation => exact differentiates_negation moves
  | multiplication => exact differentiates_multiplication moves
  | division => exact differentiates_division moves
  | cosine => exact differentiates_cosine moves
  | sine => exact differentiates_sine moves
  | scaling s h => exact differentiates_scaling h moves
  | innerProduct s h => exact differentiates_innerProduct h moves
  | constructor s h => exact differentiates_constructor h moves
  | selector s h i lt => exact differentiates_selector h lt moves
  | transposition s h => exact differentiates_transposition h moves
  | matrixProduct s h => exact differentiates_matrixProduct h moves
  | columnProduct m v h => exact differentiates_columnProduct h moves
  | outerProduct m v h => exact differentiates_outerProduct h moves
  | axisRotation id r h => exact differentiates_axisRotation h moves
  | shift => exact differentiates_shift moves
  | axisScaling => exact differentiates_axisScaling moves
  | axisAngleRotation | fromHomogeneous => exact nofun

end

end Standard

end SymbolicLinalg
